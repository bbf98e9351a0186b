import CognitiveMemory.Daemon.Confinement
import CognitiveMemory.Lib.Agreement
import CognitiveMemory.Search.Bridges
import CognitiveMemory.Search.EdgeWeight
import CognitiveMemory.Search.TwoRuns
import CognitiveMemory.Store.Integrity

/-! What a store holds of one user, and the statements that depend on nothing else. -/

namespace CognitiveMemory
open Prog Selection
variable {F : Type}

def Db.owns (db : Db F) (user id : String) : Bool := db.memories.any (owned user id)

def Db.inner (db : Db F) (user : String) (e : AssociationRow F) : Bool :=
  db.owns user e.sourceMemoryId && db.owns user e.targetMemoryId

/-- The stores hold the same memories of the user and the same edges between them. -/
structure Db.SameFor (user : String) (db db' : Db F) : Prop where
  memories : db.memories.filter (·.userId == user) = db'.memories.filter (·.userId == user)
  edges : db.associations.filter (db.inner user) = db'.associations.filter (db'.inner user)

/-- No edge leads from a memory of another user to a memory of this one. -/
def Db.Sealed (db : Db F) (user : String) : Prop :=
  ∀ e ∈ db.associations, db.others user e.sourceMemoryId → db.others user e.targetMemoryId

/-- What the schema maintains of a store whose edges do not lead to the user's memories from
elsewhere. -/
structure Db.Calm (db : Db F) (user : String) : Prop where
  keyed : db.Keyed
  indexed : db.Indexed
  joined : db.Joined
  unreached : db.Sealed user

/-! ## Whose memory it is -/

theorem owns_iff {db : Db F} {user id : String} : db.owns user id ↔ ∃ r ∈ db.memories, r.userId = user ∧ r.id = id := by
  simp [Db.owns, owned]

theorem hasMemory_eq_owns {db : Db F} {user id : String} (h : db.others user id = false) :
    db.hasMemory id = db.owns user id := by
  rw [Bool.eq_iff_iff, hasMemory_iff, owns_iff]
  constructor
  · rintro ⟨r, hr, rfl⟩
    refine ⟨r, hr, ?_, rfl⟩
    by_contra hne
    have hother : db.others user r.id := others_iff.mpr ⟨r, hr, rfl, hne⟩
    rw [h] at hother
    cases hother
  · rintro ⟨r, hr, -, hid⟩
    exact ⟨r, hr, hid⟩

theorem not_others_of_owns {db : Db F} (hk : db.Keyed) {user id : String} (h : db.owns user id) :
    db.others user id = false := by
  by_contra hother
  obtain ⟨r, hr, huser, rfl⟩ := owns_iff.mp h
  obtain ⟨r', hr', hid, hne⟩ := others_iff.mp (by simpa using hother)
  rw [hk.eq_of_id hr' hr hid] at hne
  exact hne huser

namespace Db.SameFor
variable {user : String} {db db' : Db F}

theorem filter (h : SameFor user db db') {p : MemoryRow F → Bool} (hp : ∀ r, p r → r.userId = user) :
    db.memories.filter p = db'.memories.filter p := by
  have hpersonal : ∀ d : Db F, d.memories.filter p = (d.memories.filter (·.userId == user)).filter p := by
    intro d
    rw [List.filter_filter]
    refine List.filter_congr fun r _ => ?_
    by_cases hr : p r
    · simp [hr, hp r hr]
    · simp [hr]
  rw [hpersonal db, hpersonal db', h.memories]

theorem find? (h : SameFor user db db') {p : MemoryRow F → Bool} (hp : ∀ r, p r → r.userId = user) :
    db.memories.find? p = db'.memories.find? p := by
  have hpersonal : ∀ d : Db F, d.memories.find? p = (d.memories.filter (·.userId == user)).find? p := fun d =>
    (find?_filter_of_imp fun r _ hr => beq_iff_eq.mpr (hp r hr)).symm
  rw [hpersonal db, hpersonal db', h.memories]

theorem owns (h : SameFor user db db') : db.owns user = db'.owns user := by
  funext id
  have hfind : ∀ d : Db F, d.owns user id = (d.memories.find? (owned user id)).isSome := fun d => by
    rw [Bool.eq_iff_iff, List.find?_isSome, Db.owns, List.any_eq_true]
  rw [hfind db, hfind db', h.find? fun r hr => owned_user hr]

theorem inner (h : SameFor user db db') : db.inner user = db'.inner user := by
  funext e
  unfold Db.inner
  rw [h.owns]

theorem getManyForUser (h : SameFor user db db') (ids : List String) :
    db.getManyForUser user ids = db'.getManyForUser user ids := by
  have hamong : ∀ r : MemoryRow F, (r.userId == user && ids.contains r.id) = true → r.userId = user :=
    fun r hr => ownedAmong_user hr
  unfold Db.getManyForUser
  rw [h.filter hamong]

end Db.SameFor

/-! ## Reading rows -/

def Query.personal (user : String) : Query F → Prop
  | .getForUser u _ | .getManyForUser u _ | .queryMemories u _ | .findFadingCandidates u | .findStable u .. | .countsForUser u
  | .bm25Search u .. | .candidatesForSearch u .. => u = user
  | _ => False

theorem indexed_hits {db : Db F} (hk : db.Keyed) (hi : db.Indexed) {bm25 : Bm25 F} (hfixed : bm25.Fixed) (text : String)
    {m : MemoryRow F} (hm : m ∈ db.memories) :
    (db.memoriesFts.filterMap fun d => if d.id = m.id then (bm25 db.memoriesFts text d).map fun rank => (m.id, rank) else none) =
      (((bm25 [] text m.text).map fun rank => (m.id, rank)).toList : List (String × F)) := by
  let f : FtsRow → Option (String × F) := fun d => if d.id = m.id then (bm25 [] text d).map fun rank => (m.id, rank) else none
  have hf : (fun d : FtsRow => if d.id = m.id then (bm25 db.memoriesFts text d).map fun rank => (m.id, rank) else none) = f := by
    funext d
    show _ = if d.id = m.id then _ else none
    rw [hfixed db.memoriesFts []]
  obtain ⟨before, after, hsplit⟩ := List.append_of_mem hm
  have hapart : ∀ r ∈ before ++ after, f r.text = none := by
    intro r hr
    refine if_neg fun heq => ?_
    have hnodup : ((before ++ m :: after).map MemoryRow.id).Nodup := hsplit ▸ hk
    rw [List.map_append, List.map_cons, List.nodup_middle, List.nodup_cons] at hnodup
    exact hnodup.1 (List.map_append ▸ List.mem_map.mpr ⟨r, hr, heq⟩)
  have hself : f m.text = (bm25 [] text m.text).map fun rank => (m.id, rank) := if_pos rfl
  have hnone : ∀ rows : List (MemoryRow F), (∀ r ∈ rows, f r.text = none) → (rows.map MemoryRow.text).filterMap f = [] := by
    intro rows hrows
    refine List.filterMap_eq_nil_iff.mpr fun d hd => ?_
    obtain ⟨r, hr, rfl⟩ := List.mem_map.mp hd
    exact hrows r hr
  have hone : (db.memories.map MemoryRow.text).filterMap f =
      ((bm25 [] text m.text).map fun rank => (m.id, rank)).toList := by
    rw [hsplit, List.map_append, List.map_cons, List.filterMap_append, List.filterMap_cons,
      hnone before fun r hr => hapart r (List.mem_append_left _ hr), hnone after fun r hr => hapart r (List.mem_append_right _ hr), hself]
    cases bm25 [] text m.text <;> rfl
  rw [hf, filterMap_of_perm hi, hone]
  rw [hone]
  cases bm25 [] text m.text <;> simp

theorem Db.SameFor.eval [LinearOrder F] {user : String} {db db' : Db F} (h : SameFor user db db')
    (hc : db.Calm user) (hc' : db'.Calm user)
    {bm25 : Bm25 F} (hfixed : bm25.Fixed) {q : Query F} (hq : q.personal user) : q.eval bm25 db = q.eval bm25 db' := by
  -- every query selects by user, so it reads rows that are the same in both
  have hrows : ∀ p : MemoryRow F → Bool, (∀ r, p r → r.userId = user) → db.memories.filter p = db'.memories.filter p :=
    fun p hp => h.filter hp
  cases q with
  | getForUser u id =>
    cases hq
    exact congrArg Except.ok (h.find? fun r hr => owned_user hr)
  | getManyForUser u ids =>
    cases hq
    exact congrArg Except.ok (h.getManyForUser ids)
  | queryMemories u filters =>
    cases hq
    have haccepts : ∀ r : MemoryRow F, filters.accepts user r → r.userId = user := by
      intro r hr
      simp only [MemoryFilters.accepts, Bool.and_eq_true, beq_iff_eq] at hr
      tauto
    simp only [Query.eval, Db.queryMemories, hrows _ haccepts]
  | findFadingCandidates u =>
    cases hq
    have hhot : ∀ r : MemoryRow F, (r.userId == user && r.hot) = true → r.userId = user := fun r hr => by
      simpa using (Bool.and_eq_true_iff.mp hr).1
    simp only [Query.eval, hrows _ hhot]
  | findStable u minStability minAccessCount limit =>
    cases hq
    have hstable : ∀ r : MemoryRow F, (r.userId == user && decide (minStability ≤ r.stability) &&
        decide (minAccessCount ≤ r.retrievalCount) && r.hot) = true → r.userId = user := by
      intro r hr
      simp only [Bool.and_eq_true, beq_iff_eq] at hr
      tauto
    simp only [Query.eval, hrows _ hstable]
  | countsForUser u =>
    cases hq
    simp only [Query.eval, Db.countsForUser, h.memories]
  | bm25Search u text limit =>
    cases hq
    -- a row's rank must not depend on the other rows of the index, which differ
    have hhits : ∀ d : Db F, d.Calm user → ((d.memories.filter (·.userId == user)).flatMap fun m =>
        d.memoriesFts.filterMap fun r => if r.id = m.id then (bm25 d.memoriesFts text r).map fun rank => (m.id, rank) else none) =
        (d.memories.filter (·.userId == user)).flatMap fun m => ((bm25 [] text m.text).map fun rank => (m.id, rank)).toList := by
      intro d hd
      refine List.flatMap_congr fun m hm => ?_
      exact indexed_hits hd.keyed hd.indexed hfixed text (List.mem_filter.mp hm).1
    have hsearch : db.bm25Search bm25 user text limit = db'.bm25Search bm25 user text limit := by
      unfold Db.bm25Search
      rw [hhits db hc, hhits db' hc', h.memories]
    exact congrArg Except.ok hsearch
  | candidatesForSearch u provider model now includeExpired =>
    cases hq
    have hsearchable : ∀ r : MemoryRow F, r.searchable user provider model now includeExpired → r.userId = user := by
      intro r hr
      simp only [MemoryRow.searchable, Bool.and_eq_true, beq_iff_eq] at hr
      tauto
    simp only [Query.eval, hrows _ hsearchable]
  | _ => exact hq.elim

/-! ## Reading edges -/

section
variable {user : String} {db db' : Db F}

theorem Db.Calm.inner_of_target (hc : db.Calm user) {e : AssociationRow F} (he : e ∈ db.associations)
    (ht : db.owns user e.targetMemoryId) : db.inner user e := by
  have hsource : db.others user e.sourceMemoryId = false := by
    by_contra hother
    have hreached := hc.unreached e he (by simpa using hother)
    rw [not_others_of_owns hc.keyed ht] at hreached
    cases hreached
  have howns : db.owns user e.sourceMemoryId := by
    rw [← hasMemory_eq_owns hsource]
    exact (hc.joined e he).1
  exact Bool.and_eq_true_iff.mpr ⟨howns, ht⟩

theorem Db.SameFor.inbound (h : db.SameFor user db') (hc : db.Calm user) (hc' : db'.Calm user) :
    (db.associations.filter fun e => db.owns user e.targetMemoryId) =
      db'.associations.filter fun e => db.owns user e.targetMemoryId := by
  have hinner : ∀ d : Db F, d.Calm user → (d.associations.filter fun e => d.owns user e.targetMemoryId) =
      d.associations.filter (d.inner user) := by
    intro d hd
    refine List.filter_congr fun e he => ?_
    rw [Bool.eq_iff_iff]
    exact ⟨hd.inner_of_target he, fun hin => (Bool.and_eq_true_iff.mp hin).2⟩
  rw [hinner db hc, h.edges, ← hinner db' hc', h.owns]

theorem inner_of_joins {d : Db F} (hj : d.Joined) {a b : String} (ha : d.others user a = false)
    (hb : d.others user b = false)
    {e : AssociationRow F} (he : e ∈ d.associations) (hjoins : e.joins a b) : d.inner user e := by
  obtain ⟨hs, ht⟩ := hj e he
  simp only [AssociationRow.joins, Bool.and_eq_true, beq_iff_eq] at hjoins
  rw [hjoins.1, hasMemory_eq_owns ha] at hs
  rw [hjoins.2, hasMemory_eq_owns hb] at ht
  rw [Db.inner, hjoins.1, hjoins.2, hs, ht]
  rfl

theorem Db.SameFor.edge? (h : db.SameFor user db') (hj : db.Joined) (hj' : db'.Joined) {a b : String}
    (ha : db.others user a = false ∧ db'.others user a = false) (hb : db.others user b = false ∧ db'.others user b = false) :
    db.edge? a b = db'.edge? a b := by
  have hinner : ∀ d : Db F, d.Joined → d.others user a = false → d.others user b = false →
      d.edge? a b = (d.associations.filter (d.inner user)).find? (AssociationRow.joins a b) := fun d hd hda hdb =>
    (find?_filter_of_imp fun e he hjoins => inner_of_joins hd hda hdb he hjoins).symm
  rw [hinner db hj ha.1 hb.1, hinner db' hj' ha.2 hb.2, h.edges]

def Db.visible (db : Db F) (user : String) (edges : List (NeighborEdge F)) : List (NeighborEdge F) :=
  edges.filter fun e => db.owns user e.targetId

theorem Db.SameFor.neighbors [LinearOrder F] (h : db.SameFor user db') (hc : db.Calm user) (hc' : db'.Calm user)
    (minWeight : F) (id : String) :
    db.visible user (db.neighbors minWeight id) = db'.visible user (db'.neighbors minWeight id) := by
  have hvisible : ∀ d : Db F, d.visible user (d.neighbors minWeight id) = (sortDesc AssociationRow.weight <|
      byTarget AssociationRow.targetMemoryId <| (d.associations.filter fun e => d.owns user e.targetMemoryId).filter
        fun e => e.sourceMemoryId == id && decide (minWeight ≤ e.weight)).map NeighborEdge.ofRow := by
    intro d
    unfold Db.visible Db.neighbors
    rw [List.filter_map]
    show (List.filter (fun e : AssociationRow F => d.owns user e.targetMemoryId) _).map _ = _
    rw [filter_sortDesc, filter_byTarget, List.filter_filter, List.filter_filter]
    refine congrArg (fun l : List (AssociationRow F) =>
      (sortDesc AssociationRow.weight (byTarget AssociationRow.targetMemoryId l)).map NeighborEdge.ofRow) ?_
    exact List.filter_congr fun e _ => Bool.and_comm _ _
  rw [hvisible, hvisible, ← h.owns, h.inbound hc hc']

theorem Db.SameFor.edgesFromMany [LinearOrder F] (h : db.SameFor user db') (hc : db.Calm user) (hc' : db'.Calm user)
    (sourceIds : List String) (minWeight : F) :
    db.visible user (db.edgesFromMany sourceIds minWeight) = db'.visible user (db'.edgesFromMany sourceIds minWeight) := by
  have hvisible : ∀ d : Db F, d.visible user (d.edgesFromMany sourceIds minWeight) = sortDesc NeighborEdge.weight
      (byTarget NeighborEdge.targetId <| (((d.associations.filter fun e => d.owns user e.targetMemoryId).filter fun e =>
        sourceIds.contains e.sourceMemoryId && decide (minWeight ≤ e.weight)).map NeighborEdge.ofRow).foldl mergeEdge []) := by
    intro d
    unfold Db.visible Db.edgesFromMany
    dsimp only
    rw [filter_sortDesc, filter_byTarget, filter_mergeEdges, List.filter_map, List.filter_nil]
    show sortDesc _ (byTarget _ <| List.foldl mergeEdge []
      ((List.filter (fun e : AssociationRow F => d.owns user e.targetMemoryId) _).map _)) = _
    rw [List.filter_filter, List.filter_filter]
    refine congrArg (fun l : List (AssociationRow F) => sortDesc NeighborEdge.weight
      (byTarget NeighborEdge.targetId (List.foldl mergeEdge [] (List.map NeighborEdge.ofRow l)))) ?_
    exact List.filter_congr fun e _ => Bool.and_comm _ _
  rw [hvisible, hvisible, ← h.owns, h.inbound hc hc']

theorem Db.Calm.visible_neighbors [LinearOrder F] (hc : db.Calm user) (minWeight : F) {id : String}
    (hid : db.owns user id = false) :
    db.visible user (db.neighbors minWeight id) = [] := by
  refine List.filter_eq_nil_iff.mpr fun e he hown => ?_
  obtain ⟨row, hrow, rfl⟩ := List.mem_map.mp he
  obtain ⟨hmem, hfrom⟩ := List.mem_filter.mp (mem_byTarget.mp (mem_sortDesc.mp hrow))
  have hinner := hc.inner_of_target hmem hown
  rw [Db.inner, beq_iff_eq.mp (Bool.and_eq_true_iff.mp hfrom).1, hid] at hinner
  cases hinner

theorem Db.SameFor.walk [LinearOrder F] (h : db.SameFor user db') (hc : db.Calm user) (hc' : db'.Calm user)
    (minWeight : F) {a b : String}
    (ha : db.owns user a) (hb : db.owns user b) : db.walk minWeight a b = db'.walk minWeight a b := by
  have hshown : ∀ d : Db F, d.Calm user → d.owns user a → d.owns user b →
      d.walk minWeight a b = walkLevels (fun id => d.visible user (d.neighbors minWeight id)) b 3 [(a, [a])] [a] := by
    intro d hd hda hdb
    have hgoal : ∀ id, ∀ e ∈ d.neighbors minWeight id, e.targetId = b → d.owns user b := fun _ _ _ _ => hdb
    have hwalk := walkLevels_shown (fun _ => hd.visible_neighbors minWeight) hgoal 3 [(a, [a])] [a]
    rw [List.filter_cons, if_pos hda, List.filter_cons, if_pos hda, List.filter_nil, List.filter_nil] at hwalk
    exact hwalk.symm
  rw [hshown db hc ha hb, hshown db' hc' (h.owns ▸ ha) (h.owns ▸ hb)]
  refine congrArg (fun edges => walkLevels edges b 3 [(a, [a])] [a]) ?_
  funext id
  exact h.neighbors hc hc' minWeight id

/-! ## Linked memories -/

theorem getManyForUser_owned (db : Db F) (user : String) (ids : List String) :
    db.getManyForUser user ids = db.getManyForUser user (ids.filter (db.owns user)) := by
  have howns : ∀ r ∈ db.memories, r.userId = user → db.owns user r.id := fun r hr huser => owns_iff.mpr ⟨r, hr, huser, rfl⟩
  unfold Db.getManyForUser
  have hrows : (db.memories.filter fun r => r.userId == user && ids.contains r.id) =
      db.memories.filter fun r => r.userId == user && (ids.filter (db.owns user)).contains r.id := by
    refine List.filter_congr fun r hr => ?_
    rw [Bool.eq_iff_iff]
    simp only [Bool.and_eq_true, beq_iff_eq, List.contains_iff_mem, List.mem_filter]
    exact ⟨fun hin => ⟨hin.1, hin.2, howns r hr hin.1⟩, fun hin => ⟨hin.1, hin.2.1⟩⟩
  rw [← hrows]
  have hsame := List.map_insertionSort (r := fun a b : MemoryRow F => ids.idxOf a.id ≤ ids.idxOf b.id)
    (s := fun a b : MemoryRow F => (ids.filter (db.owns user)).idxOf a.id ≤ (ids.filter (db.owns user)).idxOf b.id) id
    (db.memories.filter fun r => r.userId == user && ids.contains r.id) fun a ha b hb => ?_
  · simpa using hsame
  · obtain ⟨hma, hua⟩ := List.mem_filter.mp ha
    obtain ⟨hmb, hub⟩ := List.mem_filter.mp hb
    exact (idxOf_filter_le (howns a hma (ownedAmong_user hua)) (howns b hmb (ownedAmong_user hub))).symm

theorem linkedAt_visible (db : Db F) (user : String) (edges : List (NeighborEdge F)) :
    db.linkedAt user edges = db.linkedAt user (db.visible user edges) := by
  have hids : (db.visible user edges).map NeighborEdge.targetId = (edges.map NeighborEdge.targetId).filter (db.owns user) := by
    rw [List.filter_map]
    rfl
  unfold Db.linkedAt
  rw [hids, ← getManyForUser_owned]
  refine List.filterMap_congr fun m hm => ?_
  have hown : db.owns user m.id := by
    obtain ⟨hmem, huser, -⟩ := mem_getManyForUser.mp hm
    exact owns_iff.mpr ⟨m, hmem, huser, rfl⟩
  have hfind : (db.visible user edges).find? (·.targetId == m.id) = edges.find? (·.targetId == m.id) := by
    refine find?_filter_of_imp fun e _ he => ?_
    rw [beq_iff_eq.mp he]
    exact hown
  rw [hfind]

theorem linkedAt_of_edge [LinearOrder F] {e : AssociationRow F} (he : e ∈ db.associations)
    (hown : db.owns user e.targetMemoryId) :
    db.linkedAt user (db.neighbors e.weight e.sourceMemoryId) ≠ [] := by
  obtain ⟨m, hm, huser, hid⟩ := owns_iff.mp hown
  have hedge : NeighborEdge.ofRow e ∈ db.neighbors e.weight e.sourceMemoryId := by
    refine List.mem_map_of_mem (mem_sortDesc.mpr (mem_byTarget.mpr (List.mem_filter.mpr ⟨he, ?_⟩)))
    simp
  have htarget : m.id ∈ (db.neighbors e.weight e.sourceMemoryId).map NeighborEdge.targetId := by
    rw [hid]
    exact List.mem_map_of_mem hedge
  obtain ⟨lm, hlm, -⟩ := linkedAt_of_target hm huser htarget
  exact List.ne_nil_of_mem hlm

theorem Db.SameFor.linkedAt (h : db.SameFor user db') {edges edges' : List (NeighborEdge F)}
    (he : db.visible user edges = db'.visible user edges') : db.linkedAt user edges = db'.linkedAt user edges' := by
  rw [linkedAt_visible db, linkedAt_visible db', he]
  unfold Db.linkedAt
  rw [h.getManyForUser]

end

/-! ## Writing -/

section
variable {user : String} {db db' d d' : Db F}

theorem Db.SameFor.matching (h : db.SameFor user db') {p : MemoryRow F → Bool} (hp : ∀ r, p r → r.userId = user) :
    db.matching p = db'.matching p := by
  unfold Db.matching
  rw [h.filter hp]

theorem inner_congr (h : d.memories = db.memories) : d.inner user = db.inner user := by
  funext e
  simp only [Db.inner, Db.owns, h]

theorem Db.SameFor.congr (h : db.SameFor user db') (hm : d.memories = db.memories) (ha : d.associations = db.associations)
    (hm' : d'.memories = db'.memories) (ha' : d'.associations = db'.associations) : d.SameFor user d' := by
  refine ⟨?_, ?_⟩
  · rw [hm, hm', h.memories]
  · rw [ha, ha', inner_congr hm, inner_congr hm', h.edges]

theorem owns_modify (db : Db F) (p : MemoryRow F → Bool) {f : MemoryRow F → MemoryRow F}
    (hid : ∀ r, (f r).id = r.id) (huser : ∀ r, (f r).userId = r.userId) : (db.modify p f).owns user = db.owns user := by
  funext id
  unfold Db.owns Db.modify
  rw [List.any_map]
  congr 1
  funext r
  simp only [Function.comp_apply, owned]
  split
  · rw [hid, huser]
  · rfl

theorem inner_modify (db : Db F) (p : MemoryRow F → Bool) {f : MemoryRow F → MemoryRow F}
    (hid : ∀ r, (f r).id = r.id) (huser : ∀ r, (f r).userId = r.userId) : (db.modify p f).inner user = db.inner user := by
  funext e
  unfold Db.inner
  rw [owns_modify db p hid huser]

theorem Db.SameFor.modify (h : db.SameFor user db') (p : MemoryRow F → Bool) {f : MemoryRow F → MemoryRow F}
    (hid : ∀ r, (f r).id = r.id) (huser : ∀ r, (f r).userId = r.userId) : (db.modify p f).SameFor user (db'.modify p f) := by
  have hrows : ∀ d : Db F, (d.modify p f).memories.filter (·.userId == user) =
      (d.memories.filter (·.userId == user)).map fun r => if p r then f r else r := by
    intro d
    unfold Db.modify
    rw [List.filter_map]
    refine congrArg (List.map _) (List.filter_congr fun r _ => ?_)
    simp only [Function.comp_apply]
    split
    · rw [huser]
    · rfl
  refine ⟨?_, ?_⟩
  · rw [hrows, hrows, h.memories]
  · rw [inner_modify db p hid huser, inner_modify db' p hid huser]
    exact h.edges

theorem Db.SameFor.modifyEach {α : Type} (h : db.SameFor user db') {p : α → MemoryRow F → Bool}
    {f : α → MemoryRow F → MemoryRow F} (hp : ∀ x r, p x r → r.userId = user) (hid : ∀ x r, (f x r).id = r.id)
    (huser : ∀ x r, (f x r).userId = r.userId) (xs : List α) :
    (db.modifyEach p f xs).1.SameFor user (db'.modifyEach p f xs).1 ∧ (db.modifyEach p f xs).2 = (db'.modifyEach p f xs).2 := by
  have key : ∀ acc acc' : Db F × ℕ, acc.1.SameFor user acc'.1 ∧ acc.2 = acc'.2 →
      let step := fun (acc : Db F × ℕ) x => (acc.1.modify (p x) (f x), acc.2 + acc.1.matching (p x))
      (xs.foldl step acc).1.SameFor user (xs.foldl step acc').1 ∧ (xs.foldl step acc).2 = (xs.foldl step acc').2 := by
    induction xs with
    | nil => exact fun _ _ hacc => hacc
    | cons x xs ih =>
      rintro acc acc' ⟨hdb, hcount⟩
      refine ih _ _ ⟨hdb.modify (p x) (hid x) (huser x), ?_⟩
      show acc.2 + acc.1.matching (p x) = acc'.2 + acc'.1.matching (p x)
      rw [hcount, hdb.matching (hp x)]
  exact key (db, 0) (db', 0) ⟨h, rfl⟩

theorem Db.SameFor.updateMemory (h : db.SameFor user db') (id : String) (upd : MemoryUpdate F) :
    (db.updateMemory user id upd).SameFor user (db'.updateMemory user id upd) := by
  obtain ⟨hm, ha, -⟩ := updateMemory_tables db user id upd
  obtain ⟨hm', ha', -⟩ := updateMemory_tables db' user id upd
  have hset : (db.modify (owned user id) upd.set).SameFor user (db'.modify (owned user id) upd.set) :=
    h.modify _ (fun _ => rfl) fun _ => rfl
  exact hset.congr hm ha hm' ha'

theorem Db.SameFor.insertMemory (h : db.SameFor user db') (hj : db.Joined) (hj' : db'.Joined) {row : MemoryRow F}
    (hid : db.others user row.id = false ∧ db'.others user row.id = false) :
    Alike (fun d d' => d.SameFor user d') (db.insertMemory row) (db'.insertMemory row) := by
  have hhas : db.hasMemory row.id = db'.hasMemory row.id := by
    rw [hasMemory_eq_owns hid.1, hasMemory_eq_owns hid.2, h.owns]
  unfold Db.insertMemory
  rw [hhas]
  split
  · rfl
  rename_i hnew
  have hinner : ∀ d : Db F, d.Joined → d.hasMemory row.id = false → d.associations.filter
      (Db.inner { d with memories := d.memories ++ [row], memoriesFts := d.memoriesFts ++ [⟨row.id, row.content⟩] } user) =
        d.associations.filter (d.inner user) := by
    intro d hd hfresh
    refine List.filter_congr fun e he => ?_
    have hother : ∀ id, d.hasMemory id → ((d.memories ++ [row]).any (owned user id)) = d.owns user id := by
      intro id hmem
      have hne : row.id ≠ id := by
        rintro rfl
        rw [hfresh] at hmem
        cases hmem
      simp [Db.owns, owned, hne]
    unfold Db.inner Db.owns
    dsimp only
    rw [hother _ (hd e he).1, hother _ (hd e he).2]
    rfl
  have hfresh : db'.hasMemory row.id = false := by simpa using hnew
  refine ⟨?_, ?_⟩
  · show (db.memories ++ [row]).filter _ = (db'.memories ++ [row]).filter _
    rw [List.filter_append, List.filter_append, h.memories]
  · show List.filter _ db.associations = List.filter _ db'.associations
    rw [hinner db hj (hhas.trans hfresh), hinner db' hj' hfresh, h.edges]

theorem Db.SameFor.deleteMemories (h : db.SameFor user db') {p : MemoryRow F → Bool} (hp : ∀ r, p r → r.userId = user) :
    (db.deleteMemories p).SameFor user (db'.deleteMemories p) := by
  have hgone : (db.memories.filter p).map MemoryRow.id = (db'.memories.filter p).map MemoryRow.id := by rw [h.filter hp]
  have hrows : ∀ d : Db F, (d.deleteMemories p).memories.filter (·.userId == user) =
      (d.memories.filter (·.userId == user)).filter fun r => !p r := by
    intro d
    show (d.memories.filter fun r => !p r).filter _ = _
    rw [List.filter_filter, List.filter_filter]
    exact List.filter_congr fun r _ => Bool.and_comm _ _
  have hedges : ∀ d : Db F, (d.deleteMemories p).associations.filter ((d.deleteMemories p).inner user) =
      (d.associations.filter (d.inner user)).filter fun e => !((d.memories.filter p).map MemoryRow.id).contains e.sourceMemoryId &&
        !((d.memories.filter p).map MemoryRow.id).contains e.targetMemoryId := by
    intro d
    -- an id that is not deleted stays owned as it was
    have hstays : ∀ id, ((d.memories.filter p).map MemoryRow.id).contains id = false →
        (d.deleteMemories p).owns user id = d.owns user id := by
      intro id hid
      rw [Bool.eq_iff_iff, owns_iff, owns_iff]
      constructor
      · rintro ⟨r, hr, hown⟩
        exact ⟨r, (List.mem_filter.mp hr).1, hown⟩
      · rintro ⟨r, hr, huser, rfl⟩
        refine ⟨r, List.mem_filter.mpr ⟨hr, ?_⟩, huser, rfl⟩
        by_contra hdeleted
        have hmem : r.id ∈ (d.memories.filter p).map MemoryRow.id :=
          List.mem_map_of_mem (List.mem_filter.mpr ⟨hr, by simpa using hdeleted⟩)
        rw [← List.contains_iff_mem, hid] at hmem
        cases hmem
    show (d.associations.filter _).filter _ = _
    rw [List.filter_filter, List.filter_filter]
    refine List.filter_congr fun e _ => ?_
    cases hs : ((d.memories.filter p).map MemoryRow.id).contains e.sourceMemoryId with
    | true => simp
    | false =>
      cases ht : ((d.memories.filter p).map MemoryRow.id).contains e.targetMemoryId with
      | true => simp
      | false =>
        unfold Db.inner
        rw [hstays _ hs, hstays _ ht]
        exact Bool.and_comm _ _
  refine ⟨?_, ?_⟩
  · rw [hrows, hrows, h.memories]
  · rw [hedges, hedges, h.edges, hgone]

/-- Edges between ids that name nobody else's memory are written alike. -/
theorem Db.SameFor.upsertAssociation (h : db.SameFor user db') (hj : db.Joined) (hj' : db'.Joined) {row : AssociationRow F}
    {f : AssociationRow F → AssociationRow F}
    (hf : ∀ e, (f e).sourceMemoryId = e.sourceMemoryId ∧ (f e).targetMemoryId = e.targetMemoryId)
    (hs : db.others user row.sourceMemoryId = false ∧ db'.others user row.sourceMemoryId = false)
    (ht : db.others user row.targetMemoryId = false ∧ db'.others user row.targetMemoryId = false) :
    Alike (fun d d' => d.SameFor user d') (db.upsertAssociation row f) (db'.upsertAssociation row f) := by
  have hhas : ∀ id, db.others user id = false ∧ db'.others user id = false → db.hasMemory id = db'.hasMemory id := by
    intro id hid
    rw [hasMemory_eq_owns hid.1, hasMemory_eq_owns hid.2, h.owns]
  unfold Db.upsertAssociation
  rw [h.edge? hj hj' hs ht, hhas _ hs, hhas _ ht]
  split
  · refine ⟨h.memories, ?_⟩
    have hmapped : ∀ d : Db F, (d.associations.map fun e => if e.sourceMemoryId == row.sourceMemoryId &&
        e.targetMemoryId == row.targetMemoryId then f e else e).filter (d.inner user) =
          (d.associations.filter (d.inner user)).map fun e => if e.sourceMemoryId == row.sourceMemoryId &&
            e.targetMemoryId == row.targetMemoryId then f e else e := by
      intro d
      rw [List.filter_map]
      refine congrArg (List.map _) (List.filter_congr fun e _ => ?_)
      simp only [Function.comp_apply, Db.inner]
      split
      · rw [(hf e).1, (hf e).2]
      · rfl
    exact (hmapped db).trans ((congrArg (List.map _) h.edges).trans (hmapped db').symm)
  · split
    · refine ⟨h.memories, ?_⟩
      have happended : ∀ d : Db F, (d.associations ++ [row]).filter (d.inner user) =
          d.associations.filter (d.inner user) ++ [row].filter (d.inner user) := fun d => List.filter_append ..
      refine (happended db).trans (Eq.trans ?_ (happended db').symm)
      rw [h.edges, h.inner]
    · rfl

theorem Db.SameFor.deleteEdges (h : db.SameFor user db') (p : AssociationRow F → Bool) :
    (db.deleteEdges p).SameFor user (db'.deleteEdges p) := by
  refine ⟨h.memories, ?_⟩
  have hedges : ∀ d : Db F, (d.deleteEdges p).associations.filter ((d.deleteEdges p).inner user) =
      (d.associations.filter (d.inner user)).filter fun e => !p e := by
    intro d
    show (d.associations.filter _).filter _ = _
    rw [List.filter_filter, List.filter_filter]
    exact List.filter_congr fun e _ => Bool.and_comm _ _
  rw [hedges, hedges, h.edges]

theorem Db.SameFor.joining (h : db.SameFor user db') {p : AssociationRow F → Bool}
    (hp : ∀ e ∈ db.associations, p e → db.inner user e) (hp' : ∀ e ∈ db'.associations, p e → db'.inner user e) :
    (db.associations.filter p).length = (db'.associations.filter p).length := by
  have hinner : ∀ d : Db F, (∀ e ∈ d.associations, p e → d.inner user e) →
      d.associations.filter p = (d.associations.filter (d.inner user)).filter p := by
    intro d hd
    rw [List.filter_filter]
    refine List.filter_congr fun e he => ?_
    cases hpe : p e with
    | false => rfl
    | true => rw [hd e he hpe]; rfl
  rw [hinner db hp, hinner db' hp', h.edges]

theorem Db.SameFor.strengthenPairs [Field F] [LinearOrder F] (h : db.SameFor user db') (hj : db.Joined)
    (hj' : db'.Joined) {pairs : List (String × String)}
    (hids : ∀ p ∈ pairs, (db.others user p.1 = false ∧ db'.others user p.1 = false) ∧
      db.others user p.2 = false ∧ db'.others user p.2 = false) (amount : F) (now : Int) (kind : String) :
    Alike (fun d d' => d.SameFor user d') (db.strengthenPairs pairs amount now kind) (db'.strengthenPairs pairs amount now kind) := by
  let rel : Db F → Db F → Prop := fun d d' => d.SameFor user d' ∧ (d.Joined ∧ d.memories = db.memories) ∧
    d'.Joined ∧ d'.memories = db'.memories
  have hstep : ∀ d d', ∀ e ∈ bothWays pairs, rel d d' → Alike rel (d.strengthenEdge amount now kind e)
      (d'.strengthenEdge amount now kind e) := by
    rintro d d' e he ⟨hsame, ⟨hd, hm⟩, hd', hm'⟩
    have hends : (d.others user e.1 = false ∧ d'.others user e.1 = false) ∧ d.others user e.2 = false ∧ d'.others user e.2 = false := by
      obtain ⟨p, hp, he⟩ := List.mem_flatMap.mp he
      unfold Db.others
      rw [hm, hm']
      have hpair := hids p hp
      unfold Db.others at hpair
      rcases List.mem_cons.mp he with rfl | he
      · exact hpair
      · rw [List.mem_singleton.mp he]
        exact hpair.symm
    have hup : Alike (fun d d' => d.SameFor user d') (d.strengthenEdge amount now kind e) (d'.strengthenEdge amount now kind e) := by
      unfold Db.strengthenEdge
      exact hsame.upsertAssociation hd hd' (fun _ => ⟨rfl, rfl⟩) hends.1 hends.2
    refine hup.and (fun a ha => ?_) fun b hb => ?_
    · exact ⟨joined_upsert hd ha fun _ => ⟨rfl, rfl⟩, (upsertAssociation_memories ha).1.trans hm⟩
    · exact ⟨joined_upsert hd' hb fun _ => ⟨rfl, rfl⟩, (upsertAssociation_memories hb).1.trans hm'⟩
  have hstart : rel db db' := ⟨h, ⟨hj, rfl⟩, hj', rfl⟩
  exact (alike_foldlM (bothWays pairs) hstep hstart).imp fun _ _ hrel => hrel.1

structure Ready (user : String) (ids : List String) (d d' : Db F) : Prop where
  same : d.SameFor user d'
  joined : d.Joined ∧ d'.Joined
  keyed : d.Keyed ∧ d'.Keyed
  owned : ∀ id ∈ ids, d.owns user id

theorem Ready.has {ids : List String} (h : Ready user ids d d') {id : String} (hid : id ∈ ids) :
    (d.others user id = false ∧ d'.others user id = false) ∧ d.hasMemory id ∧ d'.hasMemory id := by
  have hown := h.owned id hid
  have hown' : d'.owns user id := h.same.owns ▸ hown
  have hothers := not_others_of_owns h.keyed.1 hown
  have hothers' := not_others_of_owns h.keyed.2 hown'
  exact ⟨⟨hothers, hothers'⟩, by rwa [hasMemory_eq_owns hothers], by rwa [hasMemory_eq_owns hothers']⟩

theorem Ready.of_memories {ids : List String} {e e' : Db F} (h : Ready user ids d d') (hsame : e.SameFor user e')
    (hj : e.Joined ∧ e'.Joined) (hm : e.memories = d.memories) (hm' : e'.memories = d'.memories) : Ready user ids e e' := by
  refine ⟨hsame, hj, ?_, ?_⟩
  · unfold Db.Keyed
    rw [hm, hm']
    exact h.keyed
  · unfold Db.owns
    rw [hm]
    exact h.owned

theorem Ready.tag {ids : List String} (h : Ready user ids d d') {src tgt : String} (hs : src ∈ ids) (ht : tgt ∈ ids)
    (weight : F)
    (now : Int) : Alike (Ready user ids) (d.synapticTag src tgt weight now) (d'.synapticTag src tgt weight now) := by
  have hup : Alike (fun e e' => e.SameFor user e') (d.synapticTag src tgt weight now) (d'.synapticTag src tgt weight now) := by
    unfold Db.synapticTag
    exact h.same.upsertAssociation h.joined.1 h.joined.2 (fun _ => ⟨rfl, rfl⟩) (h.has hs).1 (h.has ht).1
  have hafter : Alike (fun e e' => e.SameFor user e' ∧ (e.Joined ∧ e.memories = d.memories) ∧ e'.Joined ∧ e'.memories = d'.memories)
      (d.synapticTag src tgt weight now) (d'.synapticTag src tgt weight now) := by
    refine hup.and (fun e he => ?_) fun e he => ?_
    · exact ⟨joined_upsert h.joined.1 he fun _ => ⟨rfl, rfl⟩, (upsertAssociation_memories he).1⟩
    · exact ⟨joined_upsert h.joined.2 he fun _ => ⟨rfl, rfl⟩, (upsertAssociation_memories he).1⟩
  exact hafter.imp fun e e' hrel => h.of_memories hrel.1 ⟨hrel.2.1.1, hrel.2.2.1⟩ hrel.2.1.2 hrel.2.2.2

theorem Ready.queue {ids : List String} (h : Ready user ids d d') {newId hitId : String} (hn : newId ∈ ids)
    (hh : hitId ∈ ids) (sim : F) (now : Int) :
    Alike (Ready user ids) (d.queueConflict user newId hitId sim now) (d'.queueConflict user newId hitId sim now) := by
  have hok : ∀ c : Db F, c.hasMemory newId → c.hasMemory hitId → ∃ e, c.queueConflict user newId hitId sim now = .ok e ∧
      e.memories = c.memories ∧ e.associations = c.associations := by
    intro c hcn hch
    unfold Db.queueConflict
    rw [hcn, hch]
    split
    · exact ⟨c, rfl, rfl, rfl⟩
    · exact ⟨_, rfl, rfl, rfl⟩
  obtain ⟨e, he, hm, ha⟩ := hok d (h.has hn).2.1 (h.has hh).2.1
  obtain ⟨e', he', hm', ha'⟩ := hok d' (h.has hn).2.2 (h.has hh).2.2
  rw [he, he']
  refine h.of_memories (h.same.congr hm ha hm' ha') ⟨?_, ?_⟩ hm hm'
  · exact h.joined.1.of_subset (fun x hx => ha ▸ hx) fun id => (hasMemory_of_ids (by rw [hm]) id).mp
  · exact h.joined.2.of_subset (fun x hx => ha' ▸ hx) fun id => (hasMemory_of_ids (by rw [hm']) id).mp

theorem Ready.reinforce {ids : List String} (h : Ready user ids d d') (id : String) {f : MemoryRow F → MemoryRow F}
    (hid : ∀ r, (f r).id = r.id) (huser : ∀ r, (f r).userId = r.userId) :
    Ready user ids (d.modify (CognitiveMemory.owned user id) f) (d'.modify (CognitiveMemory.owned user id) f) := by
  have hids : ∀ c : Db F, (c.modify (CognitiveMemory.owned user id) f).memories.map MemoryRow.id = c.memories.map MemoryRow.id := by
    intro c
    simp only [Db.modify, List.map_map]
    refine List.map_congr_left fun r _ => ?_
    simp only [Function.comp_apply]
    split
    · exact hid r
    · rfl
  refine ⟨h.same.modify _ hid huser, ⟨joined_modify h.joined.1 _ hid, joined_modify h.joined.2 _ hid⟩, ?_, ?_⟩
  · unfold Db.Keyed
    rw [hids, hids]
    exact h.keyed
  · rw [owns_modify d _ hid huser]
    exact h.owned

/-- The transaction of an ingest, on ids of the user's own memories. -/
theorem Ready.queueConflicts [Field F] [LinearOrder F] {ids : List String} (h : Ready user ids d d')
    {newId : String} (hn : newId ∈ ids) (now : Int) {hits : List (String × F)} (hhits : ∀ hit ∈ hits, hit.1 ∈ ids) :
    Alike (Ready user ids) (d.queueConflicts user newId now hits) (d'.queueConflicts user newId now hits) := by
  induction hits generalizing d d' with
  | nil => exact h
  | cons hit hits ih =>
    obtain ⟨hitId, sim⟩ := hit
    obtain ⟨hh, hhits⟩ := List.forall_mem_cons.mp hhits
    rw [Db.queueConflicts, Db.queueConflicts]
    split
    · exact ih h hhits
    split
    · exact (h.queue hn hh sim now).bind fun e e' he => ih he hhits
    split
    · exact ih (h.reinforce hitId (fun _ => rfl) fun _ => rfl) hhits
    split
    · refine (h.tag hn hh _ now).bind fun e e' he => (he.tag hh hn _ now).bind fun c c' hc => ih hc hhits
    · exact h

end

end CognitiveMemory
