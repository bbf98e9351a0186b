import CognitiveMemory.Search.Answer

/-! Two runs of a hybrid search: over one pair of rankings, with the score map read in two orders,
and over two stores that differ in what default search hides. -/

namespace CognitiveMemory
open Prog Selection
variable {F : Type}

/-! ## Orders of the score map -/

def fusionLists (scored : List (SearchResult F)) (bm25Ids : List String) : List (List RankedHit) :=
  [rankedHits (scored.map SearchResult.memoryId), rankedHits bm25Ids]

variable [Field F] [LinearOrder F]

/-- The fused score of a dense hit. -/
def fusedKey (scored : List (SearchResult F)) (bm25Ids : List String) (r : SearchResult F) : F :=
  fusedScore (fusionLists scored bm25Ids) 60 r.memoryId

section
variable {scored : List (SearchResult F)} {bm25Ids bm25Ids' : List String} {keys : List String} {n : ℕ}

/-- The ranking is taken of the dense hits in the order the map yields them. -/
theorem fusedHits_take (hkeys : keys.Perm (fusedKeys F (fusionLists scored bm25Ids))) :
    (fusedHits (fusionLists scored bm25Ids) scored keys).take n =
      ((Top.ranked (fusedKey scored bm25Ids) (keys.filterMap fun id => scored.find? (·.memoryId == id))).take n).map
        (SearchResult.rescored (fusionLists scored bm25Ids)) := by
  rw [fusedHits_eq fun id hid => hkeys.mem_iff.mp hid, filterMap_rescored, List.map_take]
  congr 1
  exact (List.map_insertionSort _ _ (SearchResult.rescored (fusionLists scored bm25Ids)) _ fun a _ b _ => Iff.rfl).symm

omit [LinearOrder F] in
theorem exists_keys (bm25Ids : List String) (hnodup : (scored.map SearchResult.memoryId).Nodup)
    {l : List (SearchResult F)} (hl : l.Perm scored) :
    ∃ keys : List String, keys.Perm (fusedKeys F (fusionLists scored bm25Ids)) ∧
      (keys.filterMap fun id => scored.find? (·.memoryId == id)) = l := by
  let ids := l.map SearchResult.memoryId
  let others := (fusedKeys F (fusionLists scored bm25Ids)).filter fun id => decide (id ∉ ids)
  have hids : ids.Nodup := (hl.map SearchResult.memoryId).nodup_iff.mpr hnodup
  have hkeys : (ids ++ others).Nodup := by
    refine List.Nodup.append hids ((fusedKeys_nodup _).filter _) fun id hid hother => ?_
    exact of_decide_eq_true (List.mem_filter.mp hother).2 hid
  refine ⟨ids ++ others, (List.perm_ext_iff_of_nodup hkeys (fusedKeys_nodup _)).mpr fun id => ⟨fun hid => ?_, fun hid => ?_⟩, ?_⟩
  · rcases List.mem_append.mp hid with hid | hid
    · obtain ⟨r, hr, rfl⟩ := List.mem_map.mp hid
      exact memoryId_mem_fusedKeys _ (hl.mem_iff.mp hr)
    · exact (List.mem_filter.mp hid).1
  · by_cases hmem : id ∈ ids
    · exact List.mem_append_left _ hmem
    · exact List.mem_append_right _ (List.mem_filter.mpr ⟨hid, decide_eq_true hmem⟩)
  · have hfirst : ids.filterMap (fun id => scored.find? (·.memoryId == id)) = l := by
      rw [List.filterMap_map]
      refine (List.filterMap_congr fun r hr => ?_).trans (List.filterMap_some (l := l))
      exact find?_memoryId hnodup (hl.mem_iff.mp hr)
    have hrest : others.filterMap (fun id => scored.find? (·.memoryId == id)) = [] := by
      refine List.filterMap_eq_nil_iff.mpr fun id hid => List.find?_eq_none.mpr fun r hr heq => ?_
      have hfound : r.memoryId = id := by simpa using heq
      have hid' : id ∈ ids := hfound ▸ List.mem_map_of_mem (hl.mem_iff.mpr hr)
      exact of_decide_eq_true (List.mem_filter.mp hid).2 hid'
    rw [List.filterMap_append, hfirst, hrest, List.append_nil]

/-- Two hybrid rankings of the same dense hits show the same, however their maps are read, just when
the scores of what can be shown are the same and tie with nothing. -/
theorem fusedHits_agree_iff (hnodup : (scored.map SearchResult.memoryId).Nodup) :
    (∀ keys keys' : List String, keys.Perm (fusedKeys F (fusionLists scored bm25Ids)) →
      keys'.Perm (fusedKeys F (fusionLists scored bm25Ids')) →
      (fusedHits (fusionLists scored bm25Ids) scored keys).take n =
        (fusedHits (fusionLists scored bm25Ids') scored keys').take n) ↔
      Top.Agree (fusedKey scored bm25Ids) (fusedKey scored bm25Ids') scored n := by
  have hshown : ∀ a ∈ scored, ∀ b ∈ scored, a.rescored (fusionLists scored bm25Ids) = b.rescored (fusionLists scored bm25Ids') ↔
      a = b ∧ fusedKey scored bm25Ids a = fusedKey scored bm25Ids' a := fun a ha b hb => rescored_inj hnodup ha hb
  rw [← Top.ranked_take_iff hnodup.of_map hshown]
  constructor
  · intro h l l' hl hl'
    obtain ⟨keys, hkeys, rfl⟩ := exists_keys bm25Ids hnodup hl
    obtain ⟨keys', hkeys', rfl⟩ := exists_keys bm25Ids' hnodup hl'
    have heq := h keys keys' hkeys hkeys'
    rwa [fusedHits_take hkeys, fusedHits_take hkeys'] at heq
  · intro h keys keys' hkeys hkeys'
    rw [fusedHits_take hkeys, fusedHits_take hkeys']
    refine h _ _ (joined_perm hnodup (hkeys.nodup_iff.mpr (fusedKeys_nodup _)) fun r hr => ?_)
      (joined_perm hnodup (hkeys'.nodup_iff.mpr (fusedKeys_nodup _)) fun r hr => ?_)
    · exact hkeys.mem_iff.mpr (memoryId_mem_fusedKeys _ hr)
    · exact hkeys'.mem_iff.mpr (memoryId_mem_fusedKeys _ hr)

theorem fusedHits_scores (hnodup : (scored.map SearchResult.memoryId).Nodup) {keys' : List String}
    (hkeys : keys.Perm (fusedKeys F (fusionLists scored bm25Ids)))
      (hkeys' : keys'.Perm (fusedKeys F (fusionLists scored bm25Ids))) :
    (fusedHits (fusionLists scored bm25Ids) scored keys).map SearchResult.score =
      (fusedHits (fusionLists scored bm25Ids) scored keys').map SearchResult.score := by
  have hsorted : ∀ ks, ks.Perm (fusedKeys F (fusionLists scored bm25Ids)) →
      ((fusedHits (fusionLists scored bm25Ids) scored ks).map SearchResult.score).Pairwise fun a b => b ≤ a := by
    intro ks hks
    rw [fusedHits_eq fun id hid => hks.mem_iff.mp hid]
    exact List.pairwise_map.mpr (Top.ranked_sorted _ _)
  have hperm := (fusedHits_perm hnodup (rankedHits bm25Ids) hkeys).trans (fusedHits_perm hnodup (rankedHits bm25Ids) hkeys').symm
  exact List.Perm.eq_of_pairwise (fun a b _ _ hab hba => le_antisymm hba hab) (hsorted keys hkeys) (hsorted keys' hkeys')
    (hperm.map SearchResult.score)

end

omit [Field F] [LinearOrder F] in
theorem exists_order (db : Db F) {ks keys : List String} (h : keys.Perm ks) :
    ∃ w : World F, w.Reads db True ∧ w.oracle.order 0 ks = keys := by
  let order : List String → List String := fun l => if l = ks then keys else l
  have hperm : ∀ l, (order l).Perm l := by
    intro l
    show (if l = ks then keys else l).Perm l
    split
    · rename_i heq
      exact heq ▸ h
    · exact .refl _
  refine ⟨⟨db, [], { Oracle.quiet with order := fun _ => order, order_perm := fun _ => hperm }⟩, ⟨rfl, fun _ _ => rfl⟩, ?_⟩
  exact if_pos rfl

/-! ### One pair of rankings -/

/-- A hybrid search once its lexical hits are read, cut at the limit. -/
def hybridRanking (scored : List (SearchResult F)) (bm25Ids : List String) (limit : ℕ) :
    SearchM F (List (SearchResult F)) := do
  let fused ← reciprocalRankFusion [rankedHits (scored.map SearchResult.memoryId), rankedHits bm25Ids] 60
  Pure.pure ((fused.filterMap fun p => (scored.find? (·.memoryId == p.1)).map fun r => { r with score := p.2 }).take limit)

theorem fuseHybrid_take {userId text : String} {o : SearchOptions F} (htext : o.queryText = some text)
    (scored : List (SearchResult F)) :
    (do let hits ← fuseHybrid userId o scored; Pure.pure (hits.take o.limit) : SearchM F _) = (do
      let bm25Ids ← (query (.bm25Search userId (safeQuery text) (bm25Limit o.limit))).mapError .storage
      hybridRanking scored bm25Ids o.limit) := by
  unfold fuseHybrid hybridRanking
  rw [htext]
  simp only [bind_eq, bind_assoc']
  rfl

section
variable {bm25 : Bm25 F} {scored : List (SearchResult F)} {bm25Ids : List String} {limit : ℕ}

theorem run_hybridRanking (w : World F) : ((hybridRanking scored bm25Ids limit).run (exec bm25) w).1 =
    .ok ((fusedHits (fusionLists scored bm25Ids) scored
      (w.oracle.order 0 (fusedKeys F (fusionLists scored bm25Ids)))).take limit) := rfl

/-- The list a hybrid search shows depends on the order of its map just when two hits tie that fewer
than `limit` go before; the scores it shows never do. -/
theorem order_free_iff (bm25 : Bm25 F) (hnodup : (scored.map SearchResult.memoryId).Nodup) (bm25Ids : List String)
    (limit : ℕ) :
    ((∀ w w' : World F, ((hybridRanking scored bm25Ids limit).run (exec bm25) w).1 =
        ((hybridRanking scored bm25Ids limit).run (exec bm25) w').1) ↔
      ∀ a ∈ scored, ∀ b ∈ scored, a ≠ b → fusedKey scored bm25Ids a = fusedKey scored bm25Ids b →
        limit ≤ Top.above (fusedKey scored bm25Ids) scored a) ∧
    ∀ w w' : World F, (((hybridRanking scored bm25Ids limit).run (exec bm25) w).1).map (List.map SearchResult.score) =
      (((hybridRanking scored bm25Ids limit).run (exec bm25) w').1).map (List.map SearchResult.score) := by
  have hagree : Top.Agree (fusedKey scored bm25Ids) (fusedKey scored bm25Ids) scored limit ↔
      ∀ a ∈ scored, ∀ b ∈ scored, a ≠ b → fusedKey scored bm25Ids a = fusedKey scored bm25Ids b →
        limit ≤ Top.above (fusedKey scored bm25Ids) scored a := by
    constructor
    · intro h a ha b hb hne htie
      by_contra hlt
      exact ((h a ha (.inl (not_le.mp hlt))).2 b hb hne.symm).1 htie.symm
    · intro h a ha hlt
      refine ⟨rfl, fun b hb hne => ?_⟩
      have hapart : fusedKey scored bm25Ids b ≠ fusedKey scored bm25Ids a := fun htie =>
        absurd (h a ha b hb hne.symm htie.symm) (not_le.mpr (hlt.elim id id))
      exact ⟨hapart, hapart⟩
  refine ⟨?_, fun w w' => ?_⟩
  · rw [← hagree, ← fusedHits_agree_iff hnodup]
    constructor
    · intro h keys keys' hkeys hkeys'
      obtain ⟨w, -, rfl⟩ := exists_order (Db.empty : Db F) hkeys
      obtain ⟨w', -, rfl⟩ := exists_order (Db.empty : Db F) hkeys'
      have heq := h w w'
      rw [run_hybridRanking, run_hybridRanking] at heq
      exact Except.ok.inj heq
    · intro h w w'
      rw [run_hybridRanking, run_hybridRanking, h _ _ (w.oracle.order_perm 0 _) (w'.oracle.order_perm 0 _)]
  · rw [run_hybridRanking, run_hybridRanking]
    show Except.ok _ = Except.ok _
    rw [List.map_take, List.map_take, fusedHits_scores hnodup (w.oracle.order_perm 0 _) (w'.oracle.order_perm 0 _)]

end

/-- Two runs of one hybrid search on one store that nothing fails show the same scores. -/
theorem hybrid_scores_order_free {bm25 : Bm25 F} {scored : List (SearchResult F)}
    (hnodup : (scored.map SearchResult.memoryId).Nodup)
    {userId text : String} {o : SearchOptions F} (htext : o.queryText = some text) {w w' : World F} (hdb : w'.db = w.db)
    (hcalm : w.oracle.sqlFault 0 = false) (hcalm' : w'.oracle.sqlFault 0 = false) :
    let cut : SearchM F (List (SearchResult F)) := do
      let hits ← fuseHybrid userId o scored
      Pure.pure (hits.take o.limit)
    ((cut.run (exec bm25) w).1).map (List.map SearchResult.score) = ((cut.run (exec bm25) w').1).map (List.map SearchResult.score) := by
  intro cut
  let q : Query F := .bm25Search userId (safeQuery text) (bm25Limit o.limit)
  let ids := w.db.bm25Search bm25 userId (safeQuery text) (bm25Limit o.limit)
  have hrun : ∀ v : World F, v.db = w.db → v.oracle.sqlFault 0 = false →
      (cut.run (exec bm25) v).1 = ((hybridRanking scored ids o.limit).run (exec bm25) (v.answer v.db)).1 := by
    intro v hv hfault
    have hids : ((query q).mapError SearchError.storage).run (exec bm25) v = (.ok ids, v.answer v.db) := by
      have hids : q.eval bm25 v.db = .ok ids := by rw [hv]; rfl
      rw [Prog.run_mapError, run_query hfault hids]
      rfl
    rw [show cut = _ from fuseHybrid_take htext scored, bind_eq]
    exact congrArg Prod.fst (Prog.run_bind_ok (exec bm25) hids)
  rw [hrun w rfl hcalm, hrun w' hdb hcalm', run_hybridRanking, run_hybridRanking]
  show Except.ok _ = Except.ok _
  rw [List.map_take, List.map_take, fusedHits_scores hnodup ((w.answer w.db).oracle.order_perm 0 _) ((w'.answer w'.db).oracle.order_perm 0 _)]

/-! ### Two orders -/

def drinks : List (SearchResult ℚ) :=
  [⟨"mem_tea", "tea", "semantic", "fact", 1, .direct⟩, ⟨"mem_milk", "milk", "semantic", "fact", 1 / 2, .direct⟩]

def reversing : World ℚ :=
  ⟨Db.empty, [], { Oracle.quiet with order := fun _ => List.reverse, order_perm := fun _ => List.reverse_perm }⟩

theorem drinks_nodup : (drinks.map SearchResult.memoryId).Nodup := by decide

theorem order_free_drinks : (∀ w w' : World ℚ,
      ((hybridRanking drinks ["mem_tea"] 1).run (exec fun _ _ _ => none) w).1 =
        ((hybridRanking drinks ["mem_tea"] 1).run (exec fun _ _ _ => none) w').1) ↔
    ∀ a ∈ drinks, ∀ b ∈ drinks, a ≠ b → fusedKey drinks ["mem_tea"] a = fusedKey drinks ["mem_tea"] b →
      1 ≤ Top.above (fusedKey drinks ["mem_tea"]) drinks a :=
  (order_free_iff _ drinks_nodup ["mem_tea"] 1).1

/-- The order of the map decides which of the two is shown. -/
theorem order_picks_drink : ¬ ∀ (scored : List (SearchResult ℚ)) (bm25Ids : List String) (limit : ℕ),
    (scored.map SearchResult.memoryId).Nodup → bm25Ids.Nodup → ∀ w w' : World ℚ,
    ((hybridRanking scored bm25Ids limit).run (exec fun _ _ _ => none) w).1 =
      ((hybridRanking scored bm25Ids limit).run (exec fun _ _ _ => none) w').1 := by
  intro h
  have hsame := h drinks ["mem_milk", "mem_tea"] 1 drinks_nodup (by decide) ⟨Db.empty, [], Oracle.quiet⟩ reversing
  revert hsame
  decide +kernel

/-! ### Two stores -/

def MemoryRow.hidden (r : MemoryRow F) (userId : String) (now : Int) : Bool :=
  r.userId == userId && (r.isStub || r.isSuperseded || r.isCold || r.validUntil.any (· ≤ now))

/-- The stores differ in hidden rows of the user at most. -/
def Db.SameShown (userId : String) (now : Int) (db db' : Db F) : Prop :=
  (db.memories.filter fun r => !r.hidden userId now) = db'.memories.filter fun r => !r.hidden userId now

def Db.lexical (bm25 : Bm25 F) (db : Db F) (userId : String) (o : SearchOptions F) : List String :=
  db.bm25Search bm25 userId (safeQuery (o.queryText.getD "")) (bm25Limit o.limit)

/-- Each memory has at most one row in the index. -/
def Db.IndexedOnce (db : Db F) : Prop := (db.memoriesFts.map FtsRow.id).Nodup

theorem sqlLimit_sublist {α : Type} (limit : Int) (l : List α) : (sqlLimit limit l).Sublist l := by
  unfold sqlLimit
  split
  · exact .refl l
  · exact List.take_sublist _ l

omit [Field F] in
theorem lexical_nodup {db : Db F} (hk : db.Keyed) (hi : db.IndexedOnce) (bm25 : Bm25 F) (userId : String)
    (o : SearchOptions F) :
    (db.lexical bm25 userId o).Nodup := by
  let text := safeQuery (o.queryText.getD "")
  let docs : MemoryRow F → List (String × F) := fun m => db.memoriesFts.filterMap fun d =>
    if d.id = m.id then (bm25 db.memoriesFts text d).map fun rank => (m.id, rank) else none
  have hfound : ∀ (m : MemoryRow F) (d : FtsRow) (p : String × F),
      (if d.id = m.id then (bm25 db.memoriesFts text d).map fun rank => (m.id, rank) else none) = some p →
      p.1 = m.id ∧ d.id = m.id := by
    intro m d p hp
    split at hp
    · obtain ⟨rank, -, rfl⟩ := Option.map_eq_some_iff.mp hp
      exact ⟨rfl, ‹_›⟩
    · cases hp
  have hone : ∀ m, ((docs m).map Prod.fst).Nodup := fun m =>
    nodup_filterMap (fun d p hp => (hfound m d p hp).1.trans (hfound m d p hp).2.symm) hi
  have hids : ∀ m, ∀ id ∈ (docs m).map Prod.fst, id = m.id := by
    intro m id hid
    obtain ⟨p, hp, rfl⟩ := List.mem_map.mp hid
    obtain ⟨d, -, hd⟩ := List.mem_filterMap.mp hp
    exact (hfound m d p hd).1
  have hall : (((db.memories.filter (·.userId == userId)).flatMap docs).map Prod.fst).Nodup := by
    rw [List.map_flatMap]
    refine List.nodup_flatMap.mpr ⟨fun m _ => hone m, ?_⟩
    have hrows : ((db.memories.filter (·.userId == userId)).map MemoryRow.id).Nodup := hk.sublist (List.filter_sublist.map _)
    refine (List.pairwise_map.mp (List.nodup_iff_pairwise_ne.mp hrows)).imp fun hne id hid hid' => ?_
    exact hne ((hids _ id hid).symm.trans (hids _ id hid'))
  have hsorted : ((sortAsc Prod.snd ((db.memories.filter (·.userId == userId)).flatMap docs)).map Prod.fst).Nodup :=
    ((List.perm_insertionSort _ _).map Prod.fst).nodup_iff.mpr hall
  unfold Db.lexical Db.bm25Search
  generalize bm25Limit o.limit = limit
  exact hsorted.sublist (sqlLimit_sublist limit _)

/-! #### Scores and places -/

section

variable [IsStrictOrderedRing F]

theorem sum_places (id : String) {ids : List String} (h : ids.Nodup) (n : ℕ) :
    (((((ids.zipIdx n).map fun p => (⟨p.1, p.2⟩ : RankedHit)).filter (·.id == id)).map
      fun hit => 1 / (((60 : ℕ) : F) + (hit.rank : F) + 1)).sum) =
      ((ids.idxOf? id).map fun i => 1 / (((60 : ℕ) : F) + ((n + i : ℕ) : F) + 1)).getD 0 := by
  induction ids generalizing n with
  | nil => rfl
  | cons a ids ih =>
    obtain ⟨ha, hids⟩ := List.nodup_cons.mp h
    rw [List.zipIdx_cons, List.map_cons, List.filter_cons, List.idxOf?_cons]
    by_cases heq : a = id
    · subst heq
      have hnone : ids.idxOf? a = none := List.idxOf?_eq_none_iff.mpr ha
      rw [if_pos (beq_self_eq_true _), if_pos (beq_self_eq_true _), List.map_cons, List.sum_cons, ih hids, hnone]
      simp
    · have hother : (a == id) = false := by simpa using heq
      rw [hother, if_neg Bool.false_ne_true, if_neg Bool.false_ne_true, ih hids, Option.map_map]
      congr 2
      funext i
      simp only [Function.comp_apply]
      congr 4
      omega

/-- A place adds something to the score, and different places add different things. -/
theorem place_score_inj {i j : Option ℕ} :
    (i.map fun i => 1 / (((60 : ℕ) : F) + ((0 + i : ℕ) : F) + 1)).getD 0 =
      (j.map fun j => 1 / (((60 : ℕ) : F) + ((0 + j : ℕ) : F) + 1)).getD 0 ↔ i = j := by
  have hpos : ∀ n : ℕ, (0 : F) < ((60 : ℕ) : F) + ((0 + n : ℕ) : F) + 1 := fun n => by positivity
  constructor
  · intro h
    cases i with
    | none =>
      cases j with
      | none => rfl
      | some j => exact absurd h (one_div_pos.mpr (hpos j)).ne
    | some i =>
      cases j with
      | none => exact absurd h (one_div_pos.mpr (hpos i)).ne'
      | some j =>
        have hplace : ((60 : ℕ) : F) + ((0 + i : ℕ) : F) + 1 = ((60 : ℕ) : F) + ((0 + j : ℕ) : F) + 1 := by
          simpa using h
        have hcast : ((0 + i : ℕ) : F) = ((0 + j : ℕ) : F) := by simpa using hplace
        simpa using hcast
  · rintro rfl
    rfl

/-- The fused score of a dense hit says where the lexical ranking has it. -/
theorem fusedKey_eq_iff {scored : List (SearchResult F)} {ids ids' : List String} (h : ids.Nodup) (h' : ids'.Nodup)
    (r : SearchResult F) : fusedKey scored ids r = fusedKey scored ids' r ↔ ids.idxOf? r.memoryId = ids'.idxOf? r.memoryId := by
  rw [← place_score_inj (F := F), ← sum_places r.memoryId h 0, ← sum_places r.memoryId h' 0]
  simp only [fusedKey, fusionLists, fusedScore, List.flatten_cons, List.flatten_nil, List.append_nil, List.filter_append,
    List.map_append, List.sum_append, add_right_inj]
  rfl

end

/-! #### What hidden rows change -/

omit [Field F] [LinearOrder F] in
theorem not_hidden_of_searchable {r : MemoryRow F} {userId provider model : String} {now : Int}
    (h : r.searchable userId provider model now false) : r.hidden userId now = false := by
  have hvisible := visible_of_searchable h
  simp only [MemoryRow.visible, Bool.and_eq_true, Bool.not_eq_true'] at hvisible
  obtain ⟨⟨⟨⟨⟨-, hstub⟩, hsup⟩, hcold⟩, -⟩, hvalid⟩ := hvisible
  have hexpired : r.validUntil.any (· ≤ now) = false := by
    cases huntil : r.validUntil with
    | none => rfl
    | some v => simpa [huntil] using hvalid
  rw [MemoryRow.hidden, hstub, hsup, hcold, hexpired]
  simp

section
variable {bm25 : Bm25 F} {cfg : LifecycleConfig F} {db db' : Db F} {userId : String} {queryVec : List F}
  {o : SearchOptions F} {order : List String → List String}

omit [Field F] [LinearOrder F] in
theorem Db.SameShown.searchable (h : db.SameShown userId o.now db') (hrecall : o.deepRecall = false) :
    (db.memories.filter fun r => r.searchable userId o.provider o.model o.now o.deepRecall) =
      db'.memories.filter fun r => r.searchable userId o.provider o.model o.now o.deepRecall := by
  have hshown : ∀ l : List (MemoryRow F), (l.filter fun r => r.searchable userId o.provider o.model o.now o.deepRecall) =
      (l.filter fun r => !r.hidden userId o.now).filter fun r => r.searchable userId o.provider o.model o.now o.deepRecall := by
    intro l
    rw [List.filter_filter]
    apply List.filter_congr
    intro r _
    rw [Bool.eq_iff_iff]
    constructor
    · intro hr
      have hseen : r.hidden userId o.now = false := by
        rw [hrecall] at hr
        exact not_hidden_of_searchable hr
      simp [hr, hseen]
    · intro hr
      exact (Bool.and_eq_true_iff.mp hr).1
  rw [hshown, hshown db'.memories, h]

variable [Elementary F]

theorem Db.SameShown.denseHits (h : db.SameShown userId o.now db') (hrecall : o.deepRecall = false) :
    db.denseHits cfg userId queryVec o = db'.denseHits cfg userId queryVec o := by
  rw [Db.denseHits, Db.denseHits, h.searchable hrecall]

theorem hits_hybrid (hmode : o.hybrid) (hfair : Fair db userId queryVec o) :
    db.hits bm25 order cfg userId queryVec o =
      .ok (fusedHits (fusionLists (db.denseHits cfg userId queryVec o) (db.lexical bm25 userId o))
        (db.denseHits cfg userId queryVec o)
        (order (fusedKeys F (fusionLists (db.denseHits cfg userId queryVec o) (db.lexical bm25 userId o))))) := by
  obtain ⟨dense, hdense⟩ : ∃ dense, (db.candidates userId o).mapM (scoreCandidate cfg queryVec o.now) = .ok dense :=
    exists_candidate_scores cfg hfair.dims
  obtain rfl := (mapM_scoreCandidate hdense).2
  obtain ⟨text, htext⟩ := Option.isSome_iff_exists.mp (hfair.text hmode)
  unfold Db.hits
  rw [hdense]
  show db.fused bm25 order userId o (db.denseHits cfg userId queryVec o) = _
  unfold Db.fused
  rw [if_pos hmode, htext]
  rfl

theorem fair_of_hits {hits : List (SearchResult F)} (h : db.hits bm25 order cfg userId queryVec o = .ok hits) :
    Fair db userId queryVec o := by
  refine ⟨fun m hm => ?_, fun hmode => ?_⟩
  · obtain ⟨dense, hdense, -⟩ := bind_ok h
    exact (candidate_dims hdense).1 m hm
  · rcases hits_ok h with ⟨hdense, -⟩ | ⟨-, text, htext, -⟩
    · rw [hdense] at hmode
      cases hmode
    · rw [htext]
      rfl

omit [Field F] [LinearOrder F] [Elementary F] in
theorem Fair.sameShown (h : Fair db userId queryVec o) (hsame : db.SameShown userId o.now db')
    (hrecall : o.deepRecall = false) :
    Fair db' userId queryVec o := by
  refine ⟨fun m hm => h.dims m ?_, h.text⟩
  have hmem : m ∈ db'.memories.filter fun r => r.searchable userId o.provider o.model o.now o.deepRecall := List.mem_filter.mpr hm
  rw [← hsame.searchable hrecall] at hmem
  exact List.mem_filter.mp hmem

/-- Every answer of a default hybrid search on one store is every answer of it on the other. -/
def Indifferent (bm25 : Bm25 F) (cfg : LifecycleConfig F) (userId : String) (queryVec : List F) (o : SearchOptions F)
    (db db' : Db F) : Prop :=
  ∀ (w w' : World F) (results results' : List (SearchResult F)), w.db = db → w'.db = db' →
    ((search cfg userId queryVec o).run (exec bm25) w).1 = .ok results →
    ((search cfg userId queryVec o).run (exec bm25) w').1 = .ok results' → results = results'

/-- A candidate that fewer than `limit` outrank in one of the stores has its place in both lexical
rankings, and no other candidate has its score. -/
def Unmoved (dense : List (SearchResult F)) (bm25Ids bm25Ids' : List String) (limit : ℕ) : Prop :=
  ∀ r ∈ dense, Top.above (fusedKey dense bm25Ids) dense r < limit ∨ Top.above (fusedKey dense bm25Ids') dense r < limit →
    bm25Ids.idxOf? r.memoryId = bm25Ids'.idxOf? r.memoryId ∧
      ∀ r' ∈ dense, r' ≠ r → fusedKey dense bm25Ids r' ≠ fusedKey dense bm25Ids r ∧
        fusedKey dense bm25Ids' r' ≠ fusedKey dense bm25Ids' r

theorem indifferent_iff [IsStrictOrderedRing F] (hk : db.Keyed) (hk' : db'.Keyed) (hi : db.IndexedOnce)
    (hi' : db'.IndexedOnce)
    (hsame : db.SameShown userId o.now db') (hmode : o.hybrid) (hhops : o.graphExpansionHops = 0)
    (hrecall : o.deepRecall = false) : Indifferent bm25 cfg userId queryVec o db db' ↔
      (queryVec ≠ [] → Fair db userId queryVec o →
        Unmoved (db.denseHits cfg userId queryVec o) (db.lexical bm25 userId o) (db'.lexical bm25 userId o) o.limit) := by
  have hdense : db'.denseHits cfg userId queryVec o = db.denseHits cfg userId queryVec o := (hsame.denseHits hrecall).symm
  have hnodup : ((db.denseHits cfg userId queryVec o).map SearchResult.memoryId).Nodup := denseHits_nodup hk
  have hagree : Unmoved (db.denseHits cfg userId queryVec o) (db.lexical bm25 userId o) (db'.lexical bm25 userId o) o.limit ↔
      Top.Agree (fusedKey (db.denseHits cfg userId queryVec o) (db.lexical bm25 userId o))
        (fusedKey (db.denseHits cfg userId queryVec o) (db'.lexical bm25 userId o))
          (db.denseHits cfg userId queryVec o) o.limit := by
    unfold Unmoved Top.Agree
    simp only [fusedKey_eq_iff (lexical_nodup hk hi bm25 userId o) (lexical_nodup hk' hi' bm25 userId o)]
  rw [hagree, ← fusedHits_agree_iff hnodup]
  constructor
  · intro h hvec hfair keys keys' hkeys hkeys'
    by_cases hlimit : o.limit = 0
    · rw [hlimit, List.take_zero, List.take_zero]
    -- every order of the keys is the order of some run
    obtain ⟨w, hw, rfl⟩ := exists_order db hkeys
    obtain ⟨w', hw', rfl⟩ := exists_order db' hkeys'
    have hrun : ((search cfg userId queryVec o).run (exec bm25) w).1 = _ := run_search_idle hw hk (.inl hhops)
    have hrun' : ((search cfg userId queryVec o).run (exec bm25) w').1 = _ := run_search_idle hw' hk' (.inl hhops)
    have hne : ¬ queryVec.isEmpty = true := by simpa using hvec
    rw [if_neg hne, if_neg hlimit, hits_hybrid hmode hfair] at hrun
    rw [if_neg hne, if_neg hlimit, hits_hybrid hmode (hfair.sameShown hsame hrecall), hdense] at hrun'
    exact h w w' _ _ hw.db hw'.db hrun hrun'
  · intro h w w' results results' hdb hdb' hrun hrun'
    by_cases hlimit : o.limit = 0
    · rw [run_search_zero hlimit hrun, run_search_zero hlimit hrun']
    have hvec : queryVec ≠ [] := by
      rintro rfl
      exact nomatch hrun
    have hw : w.Reads db False := ⟨hdb, False.elim⟩
    have hw' : w'.Reads db' False := ⟨hdb', False.elim⟩
    obtain ⟨hits, hhits, rfl⟩ := wp_ok (wp_search_idle hw hk hvec hlimit (.inl hhops)) hrun
    obtain ⟨hits', hhits', rfl⟩ := wp_ok (wp_search_idle hw' hk' hvec hlimit (.inl hhops)) hrun'
    have hfair := fair_of_hits hhits
    rw [hits_hybrid hmode hfair] at hhits
    rw [hits_hybrid hmode (fair_of_hits hhits'), hdense] at hhits'
    cases hhits
    cases hhits'
    exact h hvec hfair _ _ (w.oracle.order_perm 0 _) (w'.oracle.order_perm 0 _)

end

/-! ### Tea under twenty cold notes -/

/-- A score of each query and document, whatever else is indexed. -/
def Bm25.Fixed (bm25 : Bm25 F) : Prop := ∀ corpus corpus' query d, bm25 corpus query d = bm25 corpus' query d

def notesFirst :
    Bm25 ℚ := fun _ _ d => if d.content = "note" then some (-2) else if d.content = "tea" then some (-1) else none

def vectorRow (id content : String) (v : List ℚ) : MemoryRow ℚ :=
  { MemoryRow.newMinimal id "alice" content "semantic" "fact" 0 with
    embedding := some v
    embeddingProvider := some "flat"
    embeddingModel := some "flat-1" }

def twoNotes : Db ℚ :=
  { Db.empty with
    memories := [vectorRow "mem_milk" "milk" [1, 0], vectorRow "mem_tea" "tea" [0, 1]]
    memoriesFts := [⟨"mem_milk", "milk"⟩, ⟨"mem_tea", "tea"⟩] }

def coldNotes : List (MemoryRow ℚ) := (List.range 20).map fun n =>
  { vectorRow (String.ofList (List.replicate n 'n')) "note" [0, 1] with isCold := true, coldSince := some 0 }

def underColdNotes : Db ℚ :=
  { twoNotes with
    memories := twoNotes.memories ++ coldNotes
    memoriesFts := twoNotes.memoriesFts ++ coldNotes.map fun r => ⟨r.id, r.content⟩ }

def teaWords : SearchOptions ℚ := ⟨1, false, "flat", "flat-1", 0, true, some "tea", 0, 3 / 10, false, 3⟩

theorem twoNotes_keyed : twoNotes.Keyed ∧ twoNotes.IndexedOnce := by
  unfold Db.Keyed Db.IndexedOnce
  decide +kernel

theorem underColdNotes_keyed : underColdNotes.Keyed ∧ underColdNotes.IndexedOnce := by
  unfold Db.Keyed Db.IndexedOnce
  decide +kernel

theorem cold_notes_hidden : twoNotes.SameShown "alice" 0 underColdNotes := by
  unfold Db.SameShown
  decide +kernel

theorem indifferent_twoNotes : Indifferent notesFirst .default "alice" [1, 0] teaWords twoNotes underColdNotes ↔
    ([1, 0] ≠ ([] : List ℚ) → Fair twoNotes "alice" [1, 0] teaWords →
      Unmoved (twoNotes.denseHits .default "alice" [1, 0] teaWords) (twoNotes.lexical notesFirst "alice" teaWords)
        (underColdNotes.lexical notesFirst "alice" teaWords) 1) :=
  indifferent_iff twoNotes_keyed.1 underColdNotes_keyed.1 twoNotes_keyed.2 underColdNotes_keyed.2 cold_notes_hidden rfl rfl rfl

/-- The notes push tea out of the lexical ranking, and milk is found in its place. -/
theorem cold_notes_hide_tea : ¬ ∀ (bm25 : Bm25 ℚ) (cfg : LifecycleConfig ℚ) (userId : String) (queryVec : List ℚ)
    (o : SearchOptions ℚ) (db db' : Db ℚ), bm25.Fixed → db.Keyed → db'.Keyed → db.IndexedOnce → db'.IndexedOnce →
    db.SameShown userId o.now db' → o.hybrid → o.graphExpansionHops = 0 → o.deepRecall = false →
    Indifferent bm25 cfg userId queryVec o db db' := by
  intro h
  have hsame := h notesFirst .default "alice" [1, 0] teaWords twoNotes underColdNotes (fun _ _ _ _ => rfl) twoNotes_keyed.1
    underColdNotes_keyed.1 twoNotes_keyed.2 underColdNotes_keyed.2 cold_notes_hidden rfl rfl rfl
  have htea : ((search .default "alice" [1, 0] teaWords).run (exec notesFirst) ⟨twoNotes, [], Oracle.quiet⟩).1.map
      (fun results => results.map SearchResult.memoryId) = .ok ["mem_tea"] := by
    decide +kernel
  have hmilk : ((search .default "alice" [1, 0] teaWords).run (exec notesFirst) ⟨underColdNotes, [], Oracle.quiet⟩).1.map
      (fun results => results.map SearchResult.memoryId) = .ok ["mem_milk"] := by
    decide +kernel
  obtain ⟨results, hrun, hids⟩ := map_ok htea
  obtain ⟨results', hrun', hids'⟩ := map_ok hmilk
  rw [hsame _ _ results results' rfl rfl hrun hrun', hids'] at hids
  exact absurd hids (by decide)

end CognitiveMemory
