import CognitiveMemory.Lib.Frontier
import CognitiveMemory.Lib.Wp
import CognitiveMemory.Search.Searcher
import CognitiveMemory.Store.Effects
import Mathlib.Order.Bounds.Basic

/-! Which memories a default search can return: those the candidates reach over links, whether
the filter of the candidates would let them pass or not. -/

namespace CognitiveMemory
open Prog Frontier
variable {F : Type}

/-! ## Linked memories -/

def Db.neighbors [LinearOrder F] (db : Db F) (minWeight : F) (id : String) : List (NeighborEdge F) :=
  (sortDesc AssociationRow.weight <| byTarget AssociationRow.targetMemoryId <| db.associations.filter
    fun e => e.sourceMemoryId == id && decide (minWeight ≤ e.weight)).map NeighborEdge.ofRow

def Db.linkedAt (db : Db F) (userId : String) (edges : List (NeighborEdge F)) : List (LinkedMemory F) :=
  attachEdges edges (db.getManyForUser userId (edges.map NeighborEdge.targetId))

def Db.linkedMany [LinearOrder F] (db : Db F) (userId : String) (sourceIds : List String) (minWeight : F) :
    List (LinkedMemory F) :=
  let edges := db.edgesFromMany sourceIds minWeight
  attachEdges edges (db.getManyForUser userId (edges.map NeighborEdge.targetId))

theorem linkedAt_nil (db : Db F) (userId : String) : db.linkedAt userId [] = [] := by simp [Db.linkedAt, attachEdges]

/-- What holds of single edges and survives merging holds of groups. -/
theorem forall_mergeEdge [LinearOrder F] {P : NeighborEdge F → Prop}
    (hmerge : ∀ g e : NeighborEdge F, P g → P e → g.targetId = e.targetId →
      P ⟨g.targetId, max g.weight e.weight, maxLast g.lastCoRetrieval e.lastCoRetrieval⟩)
    {es gs : List (NeighborEdge F)} (hgs : ∀ g ∈ gs, P g) (hes : ∀ e ∈ es, P e) : ∀ g ∈ es.foldl mergeEdge gs, P g := by
  have hone : ∀ (gs : List (NeighborEdge F)) (e : NeighborEdge F), (∀ g ∈ gs, P g) → P e → ∀ g ∈ mergeEdge gs e, P g := by
    intro gs e hgs he
    induction gs with
    | nil => simpa [mergeEdge] using he
    | cons g gs ih =>
      obtain ⟨hg, hgs⟩ := List.forall_mem_cons.mp hgs
      rw [mergeEdge]
      split
      · exact List.forall_mem_cons.mpr ⟨hmerge g e hg he ‹_›, hgs⟩
      · exact List.forall_mem_cons.mpr ⟨hg, ih hgs⟩
  induction es generalizing gs with
  | nil => exact hgs
  | cons e es ih =>
    obtain ⟨he, hes⟩ := List.forall_mem_cons.mp hes
    exact ih (hone gs e hgs he) hes

theorem mem_targets_mergeEdge [LinearOrder F] {es gs : List (NeighborEdge F)} {id : String} :
    id ∈ (es.foldl mergeEdge gs).map NeighborEdge.targetId ↔
      id ∈ gs.map NeighborEdge.targetId ∨ id ∈ es.map NeighborEdge.targetId := by
  have hone : ∀ (gs : List (NeighborEdge F)) (e : NeighborEdge F),
      id ∈ (mergeEdge gs e).map NeighborEdge.targetId ↔ id ∈ gs.map NeighborEdge.targetId ∨ id = e.targetId := by
    intro gs e
    induction gs with
    | nil => simp [mergeEdge]
    | cons g gs ih =>
      rw [mergeEdge]
      split
      · rename_i heq
        simp only [List.map_cons, List.mem_cons, ← heq]
        tauto
      · simp only [List.map_cons, List.mem_cons, ih, or_assoc]
  induction es generalizing gs with
  | nil => simp
  | cons e es ih =>
    refine ih.trans ?_
    simp only [hone, List.map_cons, List.mem_cons, or_assoc]

section
variable {db : Db F} {userId : String} {sourceIds : List String} {minWeight : F}

theorem mem_targets [LinearOrder F] {id : String} : id ∈ (db.edgesFromMany sourceIds minWeight).map NeighborEdge.targetId ↔
    ∃ e ∈ db.associations, e.sourceMemoryId ∈ sourceIds ∧ minWeight ≤ e.weight ∧ e.targetMemoryId = id := by
  let groups := ((db.associations.filter fun e => sourceIds.contains e.sourceMemoryId && decide (minWeight ≤ e.weight)).map
    NeighborEdge.ofRow).foldl mergeEdge []
  have hperm : (db.edgesFromMany sourceIds minWeight).Perm groups :=
    (List.perm_insertionSort _ _).trans (List.perm_insertionSort _ _)
  rw [(hperm.map NeighborEdge.targetId).mem_iff, mem_targets_mergeEdge]
  simp [NeighborEdge.ofRow, and_assoc]

theorem edgesFromMany_stored [LinearOrder F] {g : NeighborEdge F} (h : g ∈ db.edgesFromMany sourceIds minWeight) :
    (∃ e ∈ db.associations, minWeight ≤ e.weight ∧ e.weight = g.weight) ∧
      ∃ e ∈ db.associations, e.lastCoRetrieval = g.lastCoRetrieval := by
  rw [Db.edgesFromMany, sortDesc, List.mem_insertionSort, byTarget, List.mem_insertionSort] at h
  refine forall_mergeEdge (P := fun g => (∃ e ∈ db.associations, minWeight ≤ e.weight ∧ e.weight = g.weight) ∧
    ∃ e ∈ db.associations, e.lastCoRetrieval = g.lastCoRetrieval) ?_ (by simp) ?_ g h
  · rintro g e ⟨hgw, hgl⟩ ⟨hew, hel⟩ -
    constructor
    · rcases max_choice g.weight e.weight with hmax | hmax <;> rw [hmax] <;> assumption
    · cases hg : g.lastCoRetrieval with
      | none => exact hel
      | some a =>
        rw [hg] at hgl
        cases he : e.lastCoRetrieval with
        | none => exact hgl
        | some b =>
          rw [he] at hel
          rcases max_choice a b with hmax | hmax <;> simp only [maxLast, hmax]
          · exact hgl
          · exact hel
  · intro g hg
    obtain ⟨e, he, rfl⟩ := List.mem_map.mp hg
    obtain ⟨hmem, hkeep⟩ := List.mem_filter.mp he
    simp only [Bool.and_eq_true, decide_eq_true_eq] at hkeep
    exact ⟨⟨e, hmem, hkeep.2, rfl⟩, e, hmem, rfl⟩

theorem mem_getManyForUser {ids : List String} {m : MemoryRow F} :
    m ∈ db.getManyForUser userId ids ↔ m ∈ db.memories ∧ m.userId = userId ∧ m.id ∈ ids := by
  simp [Db.getManyForUser]

theorem mem_linkedMany [LinearOrder F] {lm : LinkedMemory F} (h : lm ∈ db.linkedMany userId sourceIds minWeight) :
    lm.memory ∈ db.memories ∧ lm.memory.userId = userId ∧
      (∃ e ∈ db.associations, e.sourceMemoryId ∈ sourceIds ∧ e.targetMemoryId = lm.memory.id) ∧
      (∃ e ∈ db.associations, minWeight ≤ e.weight ∧ e.weight = lm.linkStrength) ∧
      ∃ e ∈ db.associations, e.lastCoRetrieval = lm.lastCoRetrieval := by
  obtain ⟨m, hm, hlm⟩ := List.mem_filterMap.mp h
  obtain ⟨g, hg, rfl⟩ := Option.map_eq_some_iff.mp hlm
  obtain ⟨hmem, huser, hid⟩ := mem_getManyForUser.mp hm
  obtain ⟨e, he, hsource, -, htarget⟩ := mem_targets.mp hid
  obtain ⟨hweight, hlast⟩ := edgesFromMany_stored (List.mem_of_find?_eq_some hg)
  exact ⟨hmem, huser, ⟨e, he, hsource, htarget⟩, hweight, hlast⟩

theorem linkedAt_of_target {m : MemoryRow F} (hm : m ∈ db.memories) (huser : m.userId = userId)
    {edges : List (NeighborEdge F)}
    (hid : m.id ∈ edges.map NeighborEdge.targetId) : ∃ lm ∈ db.linkedAt userId edges, lm.memory = m := by
  obtain ⟨g, hg, hgid⟩ := List.mem_map.mp hid
  have hfound : (edges.find? (·.targetId == m.id)).isSome := List.find?_isSome.mpr ⟨g, hg, by simp [hgid]⟩
  obtain ⟨g', hg'⟩ := Option.isSome_iff_exists.mp hfound
  refine ⟨⟨m, g'.weight, g'.lastCoRetrieval⟩, List.mem_filterMap.mpr ⟨m, ?_, by rw [hg']; rfl⟩, rfl⟩
  exact mem_getManyForUser.mpr ⟨hm, huser, hid⟩

theorem linkedMany_of_edge [LinearOrder F] {m : MemoryRow F} (hm : m ∈ db.memories) (huser : m.userId = userId)
    {e : AssociationRow F}
    (he : e ∈ db.associations) (hsource : e.sourceMemoryId ∈ sourceIds) (hweight : minWeight ≤ e.weight)
    (htarget : e.targetMemoryId = m.id) : ∃ lm ∈ db.linkedMany userId sourceIds minWeight, lm.memory = m :=
  linkedAt_of_target hm huser (mem_targets.mpr ⟨e, he, hsource, hweight, htarget⟩)

end

/-! ## Runs over one store -/

structure World.Reads (db : Db F) (calm : Prop) (w : World F) : Prop where
  db : w.db = db
  calm : calm → ∀ n, w.oracle.sqlFault n = false

section
variable {bm25 : Bm25 F} {db : Db F} {calm : Prop} {w : World F}

theorem World.Reads.answer (h : w.Reads db calm) : (w.answer w.db).Reads db calm :=
  ⟨h.db, fun hc n => h.calm hc (n + 1)⟩

variable [Field F] [LinearOrder F]

/-- A query answers from the store, and leaves all but the stream of faults. -/
theorem wp_query_answer {q : Query F} {r : q.Res} (h : w.Reads db calm) (hq : q.eval bm25 db = .ok r) :
    (query q).wp (exec bm25) (fun a w' => a = r ∧ w' = w.answer w.db) (fun _ => ¬ calm) w := by
  show (Prog.ofExcept _).wp _ _ _ (w.answer w.db)
  refine wp_ofExcept (fun a ha => ?_) fun e he => ?_
  · refine ⟨?_, rfl⟩
    simp only [exec, h.db, hq] at ha
    split at ha <;> cases ha
    rfl
  · intro hc
    simp only [exec, h.calm hc 0, h.db, hq] at he
    cases he

theorem wp_query {q : Query F} {r : q.Res} (h : w.Reads db calm) (hq : q.eval bm25 db = .ok r) :
    (query q).wp (exec bm25) (fun a w' => a = r ∧ w'.Reads db calm) (fun _ => ¬ calm) w := by
  refine (wp_query_answer h hq).imp ?_
  rintro a w' ⟨ha, rfl⟩
  exact ⟨ha, h.answer⟩

theorem wp_memoriesAt {userId : String} {edges : List (NeighborEdge F)} (h : w.Reads db calm) :
    (memoriesAt userId edges).wp (exec bm25) (fun a w' => a = db.linkedAt userId edges ∧ w'.Reads db calm) (fun _ => ¬ calm) w := by
  have hnil : ∀ ids : List String, ids = [] → db.getManyForUser userId ids = [] := by
    rintro ids rfl
    simp [Db.getManyForUser]
  have hget : ∀ ids : List String, (getManyForUser userId ids).wp (exec bm25)
      (fun a w' => a = db.getManyForUser userId ids ∧ w'.Reads db calm) (fun _ => ¬ calm) w := by
    intro ids
    unfold getManyForUser
    split
    · exact ⟨(hnil ids (List.isEmpty_iff.mp ‹_›)).symm, h⟩
    · exact wp_query (q := .getManyForUser userId ids) h rfl
  unfold memoriesAt
  split
  · rename_i hempty
    rw [List.isEmpty_iff.mp hempty]
    exact ⟨(linkedAt_nil db userId).symm, h⟩
  · refine .seq (hget _) ?_
    rintro mems w' ⟨rfl, hw'⟩
    exact ⟨rfl, hw'⟩

theorem wp_linkedFor {userId sourceId : String} {minWeight : F} (h : w.Reads db calm) :
    (linkedFor userId sourceId minWeight).wp (exec bm25)
      (fun a w' => a = db.linkedAt userId (db.neighbors minWeight sourceId) ∧ w'.Reads db calm) (fun _ => ¬ calm) w := by
  refine .seq (wp_query h rfl) ?_
  rintro edges w' ⟨rfl, hw'⟩
  exact wp_memoriesAt hw'

theorem wp_linkedForMany {userId : String} {sourceIds : List String} {minWeight : F} (h : w.Reads db calm) :
    (linkedForMany userId sourceIds minWeight).wp (exec bm25)
      (fun a w' => a = db.linkedMany userId sourceIds minWeight ∧ w'.Reads db calm) (fun _ => ¬ calm) w := by
  unfold linkedForMany
  split
  · rename_i hempty
    have hedges : db.edgesFromMany sourceIds minWeight = [] := by
      rw [List.isEmpty_iff.mp hempty]
      simp [Db.edgesFromMany, sortDesc, byTarget]
    exact ⟨by simp [Db.linkedMany, hedges, attachEdges], h⟩
  · refine .seq (wp_query h rfl) ?_
    rintro edges w' ⟨rfl, hw'⟩
    exact wp_memoriesAt hw'

end

/-! ## The walk -/

def MemoryRow.visible (r : MemoryRow F) (userId : String) (now : Int) : Bool :=
  r.userId == userId && !r.isStub && !r.isSuperseded && !r.isCold && r.validFrom.all (· ≤ now) &&
    r.validUntil.all (now < ·)

theorem visible_of_searchable {r : MemoryRow F} {userId provider model : String} {now : Int}
    (h : r.searchable userId provider model now false) : r.visible userId now := by
  simp only [MemoryRow.searchable, Bool.and_eq_true, Bool.false_or] at h
  simp only [MemoryRow.visible, Bool.and_eq_true]
  tauto

def MemoryRow.hasDim (r : MemoryRow F) (dim : ℕ) : Prop := r.embedding.map List.length = some dim

/-- An association row leads from the one id to the other, a memory of the user with a vector of
this dimension. -/
def Db.links (db : Db F) (userId : String) (dim : ℕ) (a b : String) : Prop :=
  (∃ e ∈ db.associations, e.sourceMemoryId = a ∧ e.targetMemoryId = b) ∧
    ∃ m ∈ db.memories, m.id = b ∧ m.userId = userId ∧ m.hasDim dim

def Db.Reaches (db : Db F) (userId : String) (o : SearchOptions F) (dim : ℕ) (id : String) : Prop :=
  ∃ c ∈ db.memories, c.searchable userId o.provider o.model o.now o.deepRecall ∧
    Relation.ReflTransGen (db.links userId dim) c.id id

theorem mem_sortDesc [LinearOrder F] {α : Type} {key : α → F} {l : List α} {a : α} :
    a ∈ sortDesc key l ↔ a ∈ l := List.mem_insertionSort _

theorem mem_byTarget {α : Type} {target : α → String} {l : List α} {a : α} : a ∈ byTarget target l ↔ a ∈ l :=
  List.mem_insertionSort _

section
variable {cfg : LifecycleConfig F} {queryVec : List F} {o : SearchOptions F} {lm : LinkedMemory F}

theorem expandEntry_some [Field F] [LinearOrder F] [Elementary F] {r : SearchResult F}
    (h : expandEntry cfg queryVec o lm = some r) :
    r.memoryId = lm.memory.id ∧ lm.memory.hasDim queryVec.length := by
  unfold expandEntry at h
  split at h
  · cases h
  split at h
  · cases h
  rename_i v hv
  split at h
  · cases h
  rename_i hdim
  cases h
  refine ⟨rfl, ?_⟩
  rw [MemoryRow.hasDim, hv, Option.map_some, not_not.mp hdim]

theorem expandEntry_of_live [Field F] [LinearOrder F] [Elementary F]
    (hlive : o.minBridgeEdgeWeight ≤ liveWeight cfg o.now lm) (hdim : lm.memory.hasDim queryVec.length) :
    ∃ r, expandEntry cfg queryVec o lm = some r := by
  obtain ⟨v, hv, hlen⟩ := Option.map_eq_some_iff.mp hdim
  unfold expandEntry
  rw [if_neg (not_lt.mpr hlive)]
  simp [hv, hlen]

theorem Db.Reaches.link {db : Db F} {userId : String} {dim : ℕ} {a b : String} (h : db.Reaches userId o dim a)
    (hab : db.links userId dim a b) : db.Reaches userId o dim b := by
  obtain ⟨c, hc, hs, hpath⟩ := h
  exact ⟨c, hc, hs, hpath.tail hab⟩

theorem Db.Reaches.stored {db : Db F} {userId : String} {dim : ℕ} {id : String} (h : db.Reaches userId o dim id) :
    ∃ m ∈ db.memories, m.id = id ∧ m.userId = userId := by
  obtain ⟨c, hc, hs, hpath⟩ := h
  cases hpath with
  | refl =>
    simp only [MemoryRow.searchable, Bool.and_eq_true, beq_iff_eq] at hs
    exact ⟨c, hc, rfl, hs.1.1.1.1.1.1⟩
  | tail _ hlink =>
    obtain ⟨-, m, hm, hid, huser, -⟩ := hlink
    exact ⟨m, hm, hid, huser⟩

variable [Field F] [LinearOrder F]

theorem foldl_add_keeps [Elementary F] {P : Expansion F → Prop} {linked : List (LinkedMemory F)} {x : Expansion F}
    (hadd : ∀ x lm r, lm ∈ linked → lm.memory.id ∉ x.alreadyHave → expandEntry cfg queryVec o lm = some r → P x →
      P ⟨lm.memory.id :: x.alreadyHave, x.scored ++ [r], x.frontier ++ [lm.memory.id]⟩) (h : P x) :
    P (linked.foldl (Expansion.add cfg queryVec o) x) := by
  induction linked generalizing x with
  | nil => exact h
  | cons lm linked ih =>
    refine ih (fun x lm' r hlm' => hadd x lm' r (List.mem_cons_of_mem _ hlm')) ?_
    unfold Expansion.add
    split
    · exact h
    · rename_i hnew
      split
      · exact h
      · exact hadd x lm _ List.mem_cons_self (by simpa using hnew) ‹_› h

theorem mem_foldl_add [Elementary F] {linked : List (LinkedMemory F)} {x : Expansion F} {r : SearchResult F}
    (hlm : lm ∈ linked) (hr : expandEntry cfg queryVec o lm = some r) :
    lm.memory.id ∈ (linked.foldl (Expansion.add cfg queryVec o) x).alreadyHave := by
  have hgrow : ∀ (linked : List (LinkedMemory F)) (x : Expansion F) {id : String}, id ∈ x.alreadyHave →
      id ∈ (linked.foldl (Expansion.add cfg queryVec o) x).alreadyHave := fun linked x id hid =>
    foldl_add_keeps (P := fun x => id ∈ x.alreadyHave) (fun x lm r _ _ _ h => List.mem_cons_of_mem _ h) hid
  induction linked generalizing x with
  | nil => nomatch hlm
  | cons lm' linked ih =>
    rcases List.mem_cons.mp hlm with rfl | hlm
    · refine hgrow linked _ ?_
      unfold Expansion.add
      split
      · rename_i hold
        simpa using hold
      · rw [hr]
        exact List.mem_cons_self
    · exact ih hlm

structure Walk (db : Db F) (userId : String) (o : SearchOptions F) (dim : ℕ) (x : Expansion F) : Prop where
  reached : ∀ id ∈ x.scored.map SearchResult.memoryId, db.Reaches userId o dim id
  held : ∀ id, id ∈ x.alreadyHave ↔ id ∈ x.scored.map SearchResult.memoryId
  frontier : ∀ id ∈ x.frontier, id ∈ x.alreadyHave

variable {db : Db F} {userId : String}

omit [Field F] in
theorem links_of_linkedMany {sources : List String} {minWeight : F} (h : lm ∈ db.linkedMany userId sources minWeight)
    {dim : ℕ} (hdim : lm.memory.hasDim dim) : ∃ a ∈ sources, db.links userId dim a lm.memory.id := by
  obtain ⟨hmem, huser, ⟨e, he, hsource, htarget⟩, -⟩ := mem_linkedMany h
  exact ⟨e.sourceMemoryId, hsource, ⟨e, he, rfl, htarget⟩, lm.memory, hmem, rfl, huser, hdim⟩

omit [Field F] [LinearOrder F] in
theorem map_memoryId_add {scored : List (SearchResult F)} {r : SearchResult F} (h : r.memoryId = lm.memory.id) :
    (scored ++ [r]).map SearchResult.memoryId = scored.map SearchResult.memoryId ++ [lm.memory.id] := by
  rw [List.map_append, List.map_singleton, h]

variable [Elementary F]

theorem Walk.expand {x : Expansion F} (h : Walk db userId o queryVec.length x) :
    Walk db userId o queryVec.length ((db.linkedMany userId x.frontier o.minBridgeEdgeWeight).foldl
      (Expansion.add cfg queryVec o) ⟨x.alreadyHave, x.scored, []⟩) := by
  refine foldl_add_keeps (P := Walk db userId o queryVec.length) (fun y lm r hlm hnew hr hy => ?_)
    ⟨h.reached, h.held, by simp⟩
  obtain ⟨hid, hdim⟩ := expandEntry_some hr
  obtain ⟨a, ha, hlink⟩ := links_of_linkedMany hlm hdim
  have hreach : db.Reaches userId o queryVec.length lm.memory.id := (h.reached a ((h.held a).mp (h.frontier a ha))).link hlink
  refine ⟨?_, ?_, ?_⟩
  · intro id hmem
    rw [map_memoryId_add hid, List.mem_append, List.mem_singleton] at hmem
    rcases hmem with hmem | rfl
    · exact hy.reached id hmem
    · exact hreach
  · intro id
    rw [map_memoryId_add hid, List.mem_append, List.mem_cons, List.mem_singleton, hy.held id, or_comm]
  · intro id hmem
    rcases List.mem_append.mp hmem with hmem | hmem
    · exact List.mem_cons_of_mem _ (hy.frontier id hmem)
    · rw [List.mem_singleton.mp hmem]
      exact List.mem_cons_self

/-- The ids held are those of the results, and no memory is held twice. -/
theorem held_foldl_add {linked : List (LinkedMemory F)} {x : Expansion F}
    (hheld : ∀ id, id ∈ x.alreadyHave ↔ id ∈ x.scored.map SearchResult.memoryId)
      (h : (x.scored.map SearchResult.memoryId).Nodup) :
    (∀ id, id ∈ (linked.foldl (Expansion.add cfg queryVec o) x).alreadyHave ↔
        id ∈ (linked.foldl (Expansion.add cfg queryVec o) x).scored.map SearchResult.memoryId) ∧
      ((linked.foldl (Expansion.add cfg queryVec o) x).scored.map SearchResult.memoryId).Nodup := by
  refine foldl_add_keeps (P := fun y => (∀ id, id ∈ y.alreadyHave ↔ id ∈ y.scored.map SearchResult.memoryId) ∧
    (y.scored.map SearchResult.memoryId).Nodup) (fun y lm r _ hnew hr hy => ?_) ⟨hheld, h⟩
  obtain ⟨hyheld, hynd⟩ := hy
  obtain ⟨hid, -⟩ := expandEntry_some hr
  constructor
  · intro id
    rw [map_memoryId_add hid, List.mem_append, List.mem_cons, List.mem_singleton, hyheld id, or_comm]
  · rw [map_memoryId_add hid]
    refine hynd.append (List.nodup_singleton _) (List.disjoint_singleton.mpr fun hmem => ?_)
    exact hnew ((hyheld _).mpr hmem)

/-- What holds of the walk before the hops, and after each, holds when it stops. -/
theorem wp_expandHops (bm25 : Bm25 F) {calm : Prop} {J : ℕ → Expansion F → Prop}
    (hstep : ∀ n x, J (n + 1) x → J n ((db.linkedMany userId x.frontier o.minBridgeEdgeWeight).foldl
      (Expansion.add cfg queryVec o) ⟨x.alreadyHave, x.scored, []⟩)) {n : ℕ} {x : Expansion F} {w : World F} (h : J n x)
    (hw : w.Reads db calm) : (expandHops cfg userId queryVec o n x).wp (exec bm25)
      (fun scored w' => (∃ k x', J k x' ∧ (k = 0 ∨ x'.frontier = []) ∧ scored = x'.scored) ∧ w'.Reads db calm)
      (fun _ => ¬ calm) w := by
  induction n generalizing x w with
  | zero => exact ⟨⟨0, x, h, .inl rfl, rfl⟩, hw⟩
  | succ n ih =>
    rw [expandHops]
    split
    · exact ⟨⟨n + 1, x, h, .inr (List.isEmpty_iff.mp ‹_›), rfl⟩, hw⟩
    · refine .seq (.mapError (wp_linkedForMany hw) fun e he => he) ?_
      rintro linked w' ⟨rfl, hw'⟩
      exact ih (hstep n x h) hw'

/-! ## The search -/

/-- Scoring fails on the first vector of another dimension, and else keeps the candidates. -/
theorem mapM_scoreCandidate {now : Int} {cs : List (SearchCandidate F)} {dense : List (SearchResult F)}
    (h : cs.mapM (scoreCandidate cfg queryVec now) = .ok dense) :
    (∀ c ∈ cs, c.embedding.length = queryVec.length) ∧
      dense = cs.map fun c => c.result (compositeScore cfg queryVec now c) .direct := by
  induction cs generalizing dense with
  | nil =>
    cases h
    simp
  | cons c cs ih =>
    rw [List.mapM_cons] at h
    obtain ⟨r, hr, h⟩ := bind_ok h
    obtain ⟨rs, hrs, h⟩ := bind_ok h
    cases h
    obtain ⟨hdims, hdense⟩ := ih hrs
    unfold scoreCandidate at hr
    split at hr
    · cases hr
    rename_i hdim
    cases hr
    exact ⟨List.forall_mem_cons.mpr ⟨not_not.mp hdim, hdims⟩, by rw [List.map_cons, hdense]⟩

theorem mapM_scoreCandidate_ok (cfg : LifecycleConfig F) (now : Int) {cs : List (SearchCandidate F)}
    (h : ∀ c ∈ cs, c.embedding.length = queryVec.length) : ∃ dense, cs.mapM (scoreCandidate cfg queryVec now) = .ok dense := by
  induction cs with
  | nil => exact ⟨[], rfl⟩
  | cons c cs ih =>
    obtain ⟨hc, hcs⟩ := List.forall_mem_cons.mp h
    obtain ⟨rs, hrs⟩ := ih hcs
    refine ⟨c.result (compositeScore cfg queryVec now c) .direct :: rs, ?_⟩
    rw [List.mapM_cons, hrs, scoreCandidate, if_neg (not_not.mpr hc)]
    rfl

omit [Elementary F] in
theorem wp_hybridHits {bm25 : Bm25 F} {calm : Prop} {scored : List (SearchResult F)} {w : World F} (hw : w.Reads db calm)
    (hcalm : calm → o.hybrid = false) : (hybridHits userId o scored).wp (exec bm25)
      (fun hits w' => (∀ r ∈ hits, r.memoryId ∈ scored.map SearchResult.memoryId) ∧ (o.hybrid = false → hits = scored) ∧
        w'.Reads db calm) (fun _ => ¬ calm) w := by
  unfold hybridHits
  split
  · rename_i hhybrid
    have hnot : ¬ calm := fun hc => absurd hhybrid (by simp [hcalm hc])
    unfold fuseHybrid
    split
    · exact hnot
    · refine .seq (.mapError (wp_query hw rfl) fun _ he => he) ?_
      rintro ids w₁ ⟨-, hw₁⟩
      refine wp.seq (P := fun _ w₂ => w₂.Reads db calm) ?_ fun fused w₂ hw₂ => ?_
      · exact World.Reads.mk hw₁.db hw₁.calm
      refine ⟨fun r hr => ?_, fun hoff => absurd hhybrid (by simp [hoff]), hw₂⟩
      obtain ⟨p, -, hp⟩ := List.mem_filterMap.mp hr
      obtain ⟨r', hr', rfl⟩ := Option.map_eq_some_iff.mp hp
      have hmem : r' ∈ scored := List.mem_of_find?_eq_some hr'
      exact List.mem_map.mpr ⟨r', hmem, rfl⟩
  · exact ⟨fun r hr => List.mem_map_of_mem hr, fun _ => rfl, hw⟩

omit [Field F] [LinearOrder F] [Elementary F] in
theorem walk_start {scored : List (SearchResult F)} {dim : ℕ}
    (h : ∀ r ∈ scored, db.Reaches userId o dim r.memoryId) : Walk db userId o dim
      ⟨scored.map SearchResult.memoryId, scored, (scored.map SearchResult.memoryId).take (max o.limit 5)⟩ := by
  refine ⟨fun id hid => ?_, fun id => Iff.rfl, fun id hid => List.mem_of_mem_take hid⟩
  obtain ⟨r, hr, rfl⟩ := List.mem_map.mp hid
  exact h r hr

theorem wp_expandedHits {bm25 : Bm25 F} {calm : Prop} {scored : List (SearchResult F)} {w : World F} (hw : w.Reads db calm)
    (h : ∀ r ∈ scored, db.Reaches userId o queryVec.length r.memoryId) : (expandedHits cfg userId queryVec o scored).wp
      (exec bm25) (fun final _ => ∀ r ∈ final, db.Reaches userId o queryVec.length r.memoryId) (fun _ => ¬ calm) w := by
  unfold expandedHits
  split
  · refine wp.seq (wp_expandHops _ (J := fun _ => Walk db userId o queryVec.length) (fun _ _ hx => hx.expand)
        (walk_start h) hw) ?_
    rintro expanded w' ⟨⟨k, x, hx, -, rfl⟩, -⟩ r hr
    exact hx.reached _ (List.mem_map_of_mem (mem_sortDesc.mp hr))
  · exact h

def Db.Candidate (db : Db F) (userId : String) (o : SearchOptions F) (c : MemoryRow F) : Prop :=
  c ∈ db.memories ∧ c.searchable userId o.provider o.model o.now o.deepRecall

theorem exists_candidate_scores (cfg : LifecycleConfig F) (h : ∀ c, db.Candidate userId o c → c.hasDim queryVec.length) :
    ∃ dense, ((db.memories.filter fun r => r.searchable userId o.provider o.model o.now o.deepRecall).map
      SearchCandidate.ofRow).mapM
      (scoreCandidate cfg queryVec o.now) = .ok dense := by
  apply mapM_scoreCandidate_ok
  intro c hc
  obtain ⟨r, hr, rfl⟩ := List.mem_map.mp hc
  obtain ⟨v, hv, hlen⟩ := Option.map_eq_some_iff.mp (h r (List.mem_filter.mp hr))
  rw [SearchCandidate.ofRow, hv]
  exact hlen

theorem candidate_dims {dense : List (SearchResult F)} (h : ((db.memories.filter fun r =>
      r.searchable userId o.provider o.model o.now o.deepRecall).map SearchCandidate.ofRow).mapM
        (scoreCandidate cfg queryVec o.now) = .ok dense) :
    (∀ c, db.Candidate userId o c → c.hasDim queryVec.length) ∧
      ∀ r ∈ dense, ∃ c, db.Candidate userId o c ∧ c.id = r.memoryId := by
  obtain ⟨hdims, rfl⟩ := mapM_scoreCandidate h
  constructor
  · rintro c ⟨hc, hs⟩
    have hlen := hdims _ (List.mem_map_of_mem (List.mem_filter.mpr ⟨hc, hs⟩))
    simp only [MemoryRow.searchable, Bool.and_eq_true] at hs
    obtain ⟨v, hv⟩ := Option.isSome_iff_exists.mp hs.1.1.1.1.1.2
    rw [SearchCandidate.ofRow, hv] at hlen
    rw [MemoryRow.hasDim, hv, Option.map_some, ← hlen]
    rfl
  · intro r hr
    obtain ⟨c', hc', rfl⟩ := List.mem_map.mp hr
    obtain ⟨c, hc, rfl⟩ := List.mem_map.mp hc'
    exact ⟨c, List.mem_filter.mp hc, rfl⟩

/-- What expansion makes of what holds of the candidates holds of whatever a search returns. -/
theorem wp_search_of {bm25 : Bm25 F} {P Q : String → Prop} (hcandidate : ∀ c, db.Candidate userId o c → P c.id)
    (hexpanded : ∀ (scored : List (SearchResult F)) (w : World F), w.Reads db False → (∀ r ∈ scored, P r.memoryId) →
      (expandedHits cfg userId queryVec o scored).wp (exec bm25) (fun final _ => ∀ r ∈ final, Q r.memoryId) (fun _ => ¬ False) w)
    {w : World F} (hw : w.Reads db False) : (search cfg userId queryVec o).wp (exec bm25)
    (fun results _ => ∀ r ∈ results, 0 < queryVec.length ∧ (∀ c, db.Candidate userId o c → c.hasDim queryVec.length) ∧
      Q r.memoryId) (fun _ => ¬ False) w := by
  unfold search
  split
  · exact not_false
  rename_i hvec
  split
  · exact fun r hr => nomatch hr
  let q : Query F := .candidatesForSearch userId o.provider o.model o.now o.deepRecall
  refine wp.seq (.mapError (wp_query (q := q) hw rfl) fun _ he => he) ?_
  rintro candidates w₁ ⟨rfl, hw₁⟩
  refine wp.seq (P := fun dense w₂ => (∀ c, db.Candidate userId o c → c.hasDim queryVec.length) ∧
    (∀ r ∈ dense, P r.memoryId) ∧ w₂.Reads db False) ?_ ?_
  · refine wp_ofExcept (fun dense hdense => ?_) fun _ _ => not_false
    obtain ⟨hdims, hfrom⟩ := candidate_dims hdense
    refine ⟨hdims, fun r hr => ?_, hw₁⟩
    obtain ⟨c, hc, hid⟩ := hfrom r hr
    exact hid ▸ hcandidate c hc
  · rintro dense w₂ ⟨hdims, hdense, hw₂⟩
    refine wp.seq (wp_hybridHits hw₂ False.elim) ?_
    rintro hits w₃ ⟨hhits, -, hw₃⟩
    have hscored : ∀ r ∈ hits, P r.memoryId := by
      intro r hr
      obtain ⟨r', hr', heq⟩ := List.mem_map.mp (hhits r hr)
      exact heq ▸ hdense r' (mem_sortDesc.mp hr')
    refine wp.seq (hexpanded hits w₃ hw₃ hscored) fun final w₄ hfinal r hr => ?_
    exact ⟨List.length_pos_iff.mpr (by simpa using hvec), hdims, hfinal r (List.mem_of_mem_take hr)⟩

/-- Whatever a search returns is reached from its candidates over links between memories whose
vectors have the dimension of the query. -/
theorem wp_search {bm25 : Bm25 F} {w : World F} (hw : w.Reads db False) : (search cfg userId queryVec o).wp (exec bm25)
    (fun results _ => ∀ r ∈ results, 0 < queryVec.length ∧ (∀ c, db.Candidate userId o c → c.hasDim queryVec.length) ∧
      db.Reaches userId o queryVec.length r.memoryId) (fun _ => ¬ False) w :=
  wp_search_of (P := db.Reaches userId o queryVec.length) (fun c hc => ⟨c, hc.1, hc.2, .refl⟩)
    (fun _ _ hw hscored => wp_expandedHits hw hscored) hw

theorem wp_search_direct {bm25 : Bm25 F} {w : World F} (hw : w.Reads db False) (hhops : o.graphExpansionHops = 0) :
    (search cfg userId queryVec o).wp (exec bm25) (fun results _ => ∀ r ∈ results, ∃ c, db.Candidate userId o c ∧
      c.id = r.memoryId)
      (fun _ => ¬ False) w := by
  let P (id : String) : Prop := ∃ c, db.Candidate userId o c ∧ c.id = id
  refine (wp_search_of (P := P) (Q := P) (fun c hc => ⟨c, hc, rfl⟩) ?_ hw).imp
    fun results _ h r hr => (h r hr).2.2
  intro scored w _ hscored
  have hnone : ¬ (0 < o.graphExpansionHops ∧ scored ≠ []) := by omega
  rw [expandedHits, if_neg hnone]
  exact hscored

/-! ## A search without bounds -/

structure Db.Strong (db : Db F) (cfg : LifecycleConfig F) (o : SearchOptions F) : Prop where
  weight : ∀ e ∈ db.associations, o.minBridgeEdgeWeight ≤ e.weight
  live : ∀ lm : LinkedMemory F, (∃ e ∈ db.associations, e.weight = lm.linkStrength) →
    (∃ e ∈ db.associations, e.lastCoRetrieval = lm.lastCoRetrieval) → o.minBridgeEdgeWeight ≤ liveWeight cfg o.now lm

theorem expanded_of_links (hstrong : db.Strong cfg o) {x : Expansion F} {a b : String} (ha : a ∈ x.frontier)
    (hab : db.links userId queryVec.length a b) : b ∈ ((db.linkedMany userId x.frontier o.minBridgeEdgeWeight).foldl
      (Expansion.add cfg queryVec o) ⟨x.alreadyHave, x.scored, []⟩).alreadyHave := by
  obtain ⟨⟨e, he, rfl, htarget⟩, m, hm, rfl, huser, hdim⟩ := hab
  obtain ⟨lm, hlm, rfl⟩ := linkedMany_of_edge hm huser he ha (hstrong.weight e he) htarget
  obtain ⟨-, -, -, ⟨e₁, he₁, -, hweight⟩, hlast⟩ := mem_linkedMany hlm
  obtain ⟨r, hr⟩ := expandEntry_of_live (hstrong.live lm ⟨e₁, he₁, hweight⟩ hlast) hdim
  exact mem_foldl_add hlm hr

/-- The walk on its way to `id`, with so many hops to go. -/
structure Approaches (db : Db F) (userId : String) (o : SearchOptions F) (dim : ℕ) (id : String) (n : ℕ)
    (x : Expansion F) : Prop where
  walk : Walk db userId o dim x
  nodup : (x.scored.map SearchResult.memoryId).Nodup
  explored : Explored (db.links userId dim) {a | a ∈ x.alreadyHave} {a | a ∈ x.frontier}
  near : ∃ a ∈ x.alreadyHave, Within (db.links userId dim) n a id

theorem Approaches.expand (hstrong : db.Strong cfg o) {id : String} {n : ℕ} {x : Expansion F}
    (h : Approaches db userId o queryVec.length id (n + 1) x) : Approaches db userId o queryVec.length id n
      ((db.linkedMany userId x.frontier o.minBridgeEdgeWeight).foldl (Expansion.add cfg queryVec o)
        ⟨x.alreadyHave, x.scored, []⟩) := by
  let next := (db.linkedMany userId x.frontier o.minBridgeEdgeWeight).foldl (Expansion.add cfg queryVec o)
    ⟨x.alreadyHave, x.scored, []⟩
  obtain ⟨hsub, hnew⟩ : (∀ a ∈ x.alreadyHave, a ∈ next.alreadyHave) ∧
      ∀ a ∈ next.alreadyHave, a ∈ x.alreadyHave ∨ a ∈ next.frontier := foldl_add_keeps
    (P := fun y => (∀ a ∈ x.alreadyHave, a ∈ y.alreadyHave) ∧ ∀ a ∈ y.alreadyHave, a ∈ x.alreadyHave ∨ a ∈ y.frontier)
    (fun y lm r _ _ _ hy => by
      refine ⟨fun a ha => List.mem_cons_of_mem _ (hy.1 a ha), fun a ha => ?_⟩
      rcases List.mem_cons.mp ha with rfl | ha
      · exact .inr (by simp)
      · exact (hy.2 a ha).imp_right (List.mem_append_left _))
    ⟨fun _ ha => ha, fun _ ha => .inl ha⟩
  have hwalk : Walk db userId o queryVec.length next := h.walk.expand
  have hexpand : ∀ a ∈ {a | a ∈ x.frontier}, ∀ b, db.links userId queryVec.length a b → _ := fun a ha b hab =>
    expanded_of_links hstrong ha hab
  obtain ⟨a, ha, hpath⟩ := h.near
  exact ⟨hwalk, (held_foldl_add (x := ⟨x.alreadyHave, x.scored, []⟩) h.walk.held h.nodup).2,
      h.explored.expand hsub hnew hwalk.frontier hexpand,
    h.explored.advance hsub hexpand ha hpath⟩

omit [Field F] [LinearOrder F] [Elementary F] in
theorem Approaches.arrived {id : String} {n : ℕ} {x : Expansion F} {dim : ℕ} (h : Approaches db userId o dim id n x)
    (hend : n = 0 ∨ x.frontier = []) : id ∈ x.scored.map SearchResult.memoryId := by
  obtain ⟨a, ha, hpath⟩ := h.near
  rw [← h.walk.held]
  rcases hend with rfl | hend
  · cases hpath
    exact ha
  · have hempty : {a | a ∈ x.frontier} = ∅ := by simp [hend]
    have hexplored := h.explored
    rw [hempty] at hexplored
    exact hexplored.done ha hpath

omit [Field F] [LinearOrder F] [Elementary F] in
theorem Walk.length_le {x : Expansion F} {dim : ℕ} (h : Walk db userId o dim x)
    (hnd : (x.scored.map SearchResult.memoryId).Nodup) : x.scored.length ≤ db.memories.length := by
  have hsub : x.scored.map SearchResult.memoryId ⊆ db.memories.map MemoryRow.id := by
    intro id hid
    obtain ⟨m, hm, rfl, -⟩ := (h.reached id hid).stored
    exact List.mem_map_of_mem hm
  simpa using (List.subperm_of_subset hnd hsub).length_le

/-- Expansion from all candidates, with as many hops as the path has links. -/
theorem wp_unbounded {bm25 : Bm25 F} {w : World F} {dense : List (SearchResult F)} (hw : w.Reads db True) (hk : db.Keyed)
    (hlimit : db.memories.length ≤ o.limit) {n : ℕ} (hhops : o.graphExpansionHops = n + 1) (hstrong : db.Strong cfg o)
    (hdense : dense.map SearchResult.memoryId = (db.memories.filter fun r =>
      r.searchable userId o.provider o.model o.now o.deepRecall).map MemoryRow.id)
    {c : MemoryRow F} (hc : db.Candidate userId o c) {id : String}
    (hpath : Within (db.links userId queryVec.length) (n + 1) c.id id) :
    (expandedHits cfg userId queryVec o (sortDesc SearchResult.score dense)).wp (exec bm25)
      (fun final _ => id ∈ final.map SearchResult.memoryId ∧ final.length ≤ o.limit) (fun _ => ¬ True) w := by
  let scored := sortDesc SearchResult.score dense
  have hperm : (scored.map SearchResult.memoryId).Perm ((db.memories.filter fun r =>
      r.searchable userId o.provider o.model o.now o.deepRecall).map MemoryRow.id) :=
    hdense ▸ (List.perm_insertionSort _ dense).map _
  have hnd : (scored.map SearchResult.memoryId).Nodup :=
    hperm.nodup_iff.mpr (hk.sublist (List.Sublist.map _ List.filter_sublist))
  have hreach : ∀ r ∈ scored, db.Reaches userId o queryVec.length r.memoryId := by
    intro r hr
    obtain ⟨c', hc', hid⟩ := List.mem_map.mp (hperm.mem_iff.mp (List.mem_map_of_mem hr))
    obtain ⟨hmem, hs⟩ := List.mem_filter.mp hc'
    exact ⟨c', hmem, hs, hid ▸ .refl⟩
  have hheld : c.id ∈ scored.map SearchResult.memoryId :=
    hperm.mem_iff.mpr (List.mem_map_of_mem (List.mem_filter.mpr hc))
  have hlength : (scored.map SearchResult.memoryId).length ≤ max o.limit 5 := by
    have hle := (walk_start (o := o) hreach).length_le hnd
    rw [List.length_map]
    exact hle.trans (hlimit.trans (le_max_left _ _))
  have hstart : Approaches db userId o queryVec.length id (n + 1)
      ⟨scored.map SearchResult.memoryId, scored, (scored.map SearchResult.memoryId).take (max o.limit 5)⟩ := by
    refine ⟨walk_start hreach, hnd, ⟨fun a ha => List.mem_of_mem_take ha, fun a ha hnot => ?_⟩, c.id, hheld, hpath⟩
    -- the frontier starts with all candidates: without a limit none is cut off
    rw [List.take_of_length_le hlength] at hnot
    exact absurd ha hnot
  have hne : 0 < o.graphExpansionHops ∧ scored ≠ [] := by
    refine ⟨by omega, fun hnil => ?_⟩
    rw [hnil] at hheld
    nomatch hheld
  unfold expandedHits
  rw [if_pos hne]
  have hhop := wp_expandHops bm25 (J := fun n x => Approaches db userId o queryVec.length id n x)
    (fun _ _ hx => hx.expand hstrong) hstart hw
  unfold expandViaGraph
  rw [hhops]
  refine wp.seq hhop ?_
  rintro expanded w' ⟨⟨k, x, hx, hend, rfl⟩, -⟩
  have hsorted := List.perm_insertionSort (fun a b : SearchResult F => b.score ≤ a.score) x.scored
  refine ⟨((hsorted.map _).mem_iff).mpr (hx.arrived hend), ?_⟩
  rw [sortDesc, hsorted.length_eq]
  exact (hx.walk.length_le hx.nodup).trans hlimit

/-- A search without a limit, from all candidates and over all edges, finds what a path of as many
links as it makes hops leads to. -/
theorem wp_search_finds {bm25 : Bm25 F} {w : World F} (hw : w.Reads db True) (hk : db.Keyed) (hhybrid : o.hybrid = false)
    (hlimit : db.memories.length ≤ o.limit) {n : ℕ} (hhops : o.graphExpansionHops = n + 1) (hvec : 0 < queryVec.length)
    (hdims : ∀ c, db.Candidate userId o c → c.hasDim queryVec.length) (hstrong : db.Strong cfg o) {c : MemoryRow F}
    (hc : db.Candidate userId o c) {id : String} (hpath : Within (db.links userId queryVec.length) (n + 1) c.id id) :
    (search cfg userId queryVec o).wp (exec bm25) (fun results _ => id ∈ results.map SearchResult.memoryId)
      (fun _ => ¬ True) w := by
  have hmemories : 0 < db.memories.length := List.length_pos_of_mem hc.1
  obtain ⟨dense, hdense⟩ := exists_candidate_scores cfg hdims
  have hscored : dense.map SearchResult.memoryId = (db.memories.filter fun r =>
      r.searchable userId o.provider o.model o.now o.deepRecall).map MemoryRow.id := by
    rw [(mapM_scoreCandidate hdense).2, List.map_map, List.map_map]
    rfl
  unfold search
  rw [if_neg (by simpa using List.length_pos_iff.mp hvec), if_neg (by omega)]
  let q : Query F := .candidatesForSearch userId o.provider o.model o.now o.deepRecall
  refine wp.seq (.mapError (wp_query (q := q) hw rfl) fun _ he => he) ?_
  rintro candidates w₁ ⟨rfl, hw₁⟩
  rw [hdense]
  refine wp.seq (P := fun a w₂ => a = dense ∧ w₂.Reads db True) ⟨rfl, hw₁⟩ ?_
  rintro _ w₂ ⟨rfl, hw₂⟩
  refine wp.seq (wp_hybridHits hw₂ fun _ => hhybrid) ?_
  rintro hits w₃ ⟨-, hhits, hw₃⟩
  rw [hhits hhybrid]
  refine wp.seq (wp_unbounded hw₃ hk hlimit hhops hstrong hscored hc hpath) fun final w₄ hfinal => ?_
  show id ∈ (final.take o.limit).map SearchResult.memoryId
  rw [List.take_of_length_le hfinal.2]
  exact hfinal.1

/-! ## Default visibility -/

/-- Whatever default search returns on this store at this time, with any query, limit, fusion,
number of hops and edge threshold, passes the default filter. -/
def Db.SearchesVisible (bm25 : Bm25 F) (cfg : LifecycleConfig F) (db : Db F) (userId provider model : String) (now : Int) :
    Prop :=
  ∀ (w : World F) (queryVec : List F) (o : SearchOptions F) (results : List (SearchResult F)), w.db = db →
    o.provider = provider → o.model = model → o.now = now → o.deepRecall = false →
    ((search cfg userId queryVec o).run (exec bm25) w).1 = .ok results →
    ∀ r ∈ results, ∃ m ∈ db.memories, m.id = r.memoryId ∧ m.visible userId now

/-- No links lead from a candidate of default search to a memory its filter hides. -/
def Db.HiddenApart (db : Db F) (userId provider model : String) (now : Int) : Prop :=
  ∀ dim, 0 < dim → (∀ c ∈ db.memories, c.searchable userId provider model now false → c.hasDim dim) →
    ∀ c ∈ db.memories, c.searchable userId provider model now false →
    ∀ m ∈ db.memories, Relation.ReflTransGen (db.links userId dim) c.id m.id → m.visible userId now

theorem exists_strong (db : Db F) (cfg : LifecycleConfig F) (now : Int) :
    ∃ minWeight, ∀ o : SearchOptions F, o.minBridgeEdgeWeight = minWeight → o.now = now → db.Strong cfg o := by
  let live (e e' : AssociationRow F) : F :=
    e'.lastCoRetrieval.elim e.weight fun last => decayAssociationWeight e.weight last now cfg.associationDecayConstantDays
  let values := db.associations.map AssociationRow.weight ++ db.associations.flatMap fun e => db.associations.map (live e)
  obtain ⟨b, hb⟩ := values.toFinset.bddBelow
  refine ⟨b, fun o hmin hnow => ⟨fun e he => ?_, ?_⟩⟩
  · rw [hmin]
    exact hb (List.mem_toFinset.mpr (List.mem_append_left _ (List.mem_map_of_mem he)))
  · rintro lm ⟨e, he, hweight⟩ ⟨e', he', hlast⟩
    have hlive : liveWeight cfg o.now lm = live e e' := by
      cases hcase : e'.lastCoRetrieval with
      | none => simp only [liveWeight, live, ← hlast, hcase, hweight, Option.elim_none]
      | some last => simp only [liveWeight, live, ← hlast, hcase, hnow, hweight, Option.elim_some]
    rw [hmin, hlive]
    refine hb (List.mem_toFinset.mpr (List.mem_append_right _ ?_))
    exact List.mem_flatMap.mpr ⟨e, he, List.mem_map_of_mem he'⟩

/-- On a store, for a user, a provider's vectors and a time: every default search stays within the
default filter if and only if no links lead from its candidates to a hidden memory. -/
theorem searchesVisible_iff (bm25 : Bm25 F) (cfg : LifecycleConfig F) (hk : db.Keyed) (userId provider model : String)
    (now : Int) : db.SearchesVisible bm25 cfg userId provider model now ↔ db.HiddenApart userId provider model now := by
  constructor
  · intro h dim hdim hdims c hc hs m hm hpath
    obtain ⟨n, hwithin⟩ := within_of_reaches hpath
    obtain ⟨minWeight, hstrong⟩ := exists_strong db cfg now
    let o : SearchOptions F := ⟨db.memories.length, false, provider, model, now, false, none, n + 1, minWeight, false, 0⟩
    let queryVec : List F := List.replicate dim 0
    have hlen : queryVec.length = dim := List.length_replicate
    let w : World F := ⟨db, [], Oracle.quiet⟩
    have hw : w.Reads db True := ⟨rfl, fun _ _ => rfl⟩
    have hfinds : (search cfg userId queryVec o).wp (exec bm25) (fun results _ => m.id ∈ results.map SearchResult.memoryId)
        (fun _ => ¬ True) w := wp_search_finds hw hk rfl
      (le_refl _) rfl (hlen ▸ hdim) (fun c hc => hlen ▸ hdims c hc.1 hc.2) (hstrong o rfl rfl) ⟨hc, hs⟩ (hlen ▸ hwithin)
    obtain ⟨results, hrun, hfound⟩ := wp_total hfinds fun _ => not_not.mpr trivial
    obtain ⟨r, hr, hid⟩ := List.mem_map.mp hfound
    obtain ⟨m', hm', hid', hvisible⟩ := h w queryVec o results rfl rfl rfl rfl rfl hrun r hr
    rw [hk.eq_of_id hm hm' (hid.symm.trans hid'.symm)]
    exact hvisible
  · rintro h w queryVec o results hdb rfl rfl rfl hrecall hrun r hr
    have hw : w.Reads db False := ⟨hdb, False.elim⟩
    obtain ⟨hvec, hdims, hreach⟩ := wp_ok (wp_search hw) hrun r hr
    obtain ⟨m, hm, hid, -⟩ := hreach.stored
    obtain ⟨c, hc, hs, hpath⟩ := hreach
    rw [hrecall] at hs
    refine ⟨m, hm, hid, h queryVec.length hvec (fun c' hc' hs' => hdims c' ⟨hc', hrecall ▸ hs'⟩) c hc hs m hm ?_⟩
    rw [hid]
    exact hpath

/-! ## So many hops, over edges of some weight -/

def Db.strongLinks (db : Db F) (userId : String) (minWeight : F) (a b : String) : Prop :=
  (∃ e ∈ db.associations, e.sourceMemoryId = a ∧ e.targetMemoryId = b ∧ minWeight ≤ e.weight) ∧
    ∃ m ∈ db.memories, m.id = b ∧ m.userId = userId

/-- At most `n` links the search may follow lead from one of its candidates to this id. -/
def Db.Near (db : Db F) (userId : String) (o : SearchOptions F) (n : ℕ) (id : String) : Prop :=
  ∃ c, db.Candidate userId o c ∧ Within (db.strongLinks userId o.minBridgeEdgeWeight) n c.id id

omit [Field F] [Elementary F] in
theorem strong_of_linkedMany {sources : List String} {minWeight : F} (h : lm ∈ db.linkedMany userId sources minWeight) :
    ∃ a ∈ sources, db.strongLinks userId minWeight a lm.memory.id := by
  obtain ⟨m, hm, hlm⟩ := List.mem_filterMap.mp h
  obtain ⟨g, -, rfl⟩ := Option.map_eq_some_iff.mp hlm
  obtain ⟨hmem, huser, hid⟩ := mem_getManyForUser.mp hm
  obtain ⟨e, he, hsource, hweight, htarget⟩ := mem_targets.mp hid
  exact ⟨e.sourceMemoryId, hsource, ⟨e, he, rfl, htarget, hweight⟩, m, hmem, rfl, huser⟩

omit [Field F] [Elementary F] in
theorem Db.Near.stored {n : ℕ} {id : String} (h : db.Near userId o n id) : ∃ m ∈ db.memories, m.id = id := by
  obtain ⟨c, hc, hpath⟩ := h
  rcases hpath.last with rfl | ⟨-, -, m, hm, hid, -⟩
  · exact ⟨c, hc.1, rfl⟩
  · exact ⟨m, hm, hid⟩

theorem near_expand {n : ℕ} {x : Expansion F} (hscored : ∀ id ∈ x.scored.map SearchResult.memoryId, db.Near userId o n id)
    (hfrontier : ∀ id ∈ x.frontier, db.Near userId o n id) :
    let next := (db.linkedMany userId x.frontier o.minBridgeEdgeWeight).foldl (Expansion.add cfg queryVec o) ⟨x.alreadyHave, x.scored, []⟩
    (∀ id ∈ next.scored.map SearchResult.memoryId, db.Near userId o (n + 1) id) ∧
      ∀ id ∈ next.frontier, db.Near userId o (n + 1) id := by
  refine foldl_add_keeps (P := fun y => (∀ id ∈ y.scored.map SearchResult.memoryId, db.Near userId o (n + 1) id) ∧
    ∀ id ∈ y.frontier, db.Near userId o (n + 1) id) (fun y lm r hlm _ hr hy => ?_) ⟨fun id hid => ?_, by simp⟩
  · obtain ⟨a, ha, hlink⟩ := strong_of_linkedMany hlm
    obtain ⟨c, hc, hpath⟩ := hfrontier a ha
    have hnear : db.Near userId o (n + 1) lm.memory.id := ⟨c, hc, within_succ_iff.mpr (.inr ⟨a, hpath, hlink⟩)⟩
    constructor
    · intro id hid
      rw [map_memoryId_add (expandEntry_some hr).1, List.mem_append, List.mem_singleton] at hid
      rcases hid with hid | rfl
      · exact hy.1 id hid
      · exact hnear
    · intro id hid
      rcases List.mem_append.mp hid with hid | hid
      · exact hy.2 id hid
      · exact List.mem_singleton.mp hid ▸ hnear
  · obtain ⟨c, hc, hpath⟩ := hscored id hid
    exact ⟨c, hc, hpath.mono (Nat.le_succ n)⟩

theorem wp_expandedHits_near {bm25 : Bm25 F} {scored : List (SearchResult F)} {w : World F} (hw : w.Reads db False)
    (h : ∀ r ∈ scored, db.Near userId o 0 r.memoryId) : (expandedHits cfg userId queryVec o scored).wp (exec bm25)
      (fun final _ => ∀ r ∈ final, db.Near userId o o.graphExpansionHops r.memoryId) (fun _ => ¬ False) w := by
  let hops := o.graphExpansionHops
  let J (k : ℕ) (x : Expansion F) : Prop := k ≤ hops ∧ (∀ id ∈ x.scored.map SearchResult.memoryId, db.Near userId o (hops - k) id) ∧
    ∀ id ∈ x.frontier, db.Near userId o (hops - k) id
  have hmono : ∀ {m : ℕ} {id : String}, db.Near userId o m id → m ≤ hops → db.Near userId o hops id := by
    rintro m id ⟨c, hc, hpath⟩ hm
    exact ⟨c, hc, hpath.mono hm⟩
  have hstart : J hops ⟨scored.map SearchResult.memoryId, scored, (scored.map SearchResult.memoryId).take (max o.limit 5)⟩ := by
    have hall : ∀ id ∈ scored.map SearchResult.memoryId, db.Near userId o (hops - hops) id := by
      intro id hid
      obtain ⟨r, hr, rfl⟩ := List.mem_map.mp hid
      exact (Nat.sub_self hops).symm ▸ h r hr
    exact ⟨le_refl _, hall, fun id hid => hall id (List.mem_of_mem_take hid)⟩
  have hstep : ∀ n x, J (n + 1) x → J n ((db.linkedMany userId x.frontier o.minBridgeEdgeWeight).foldl
      (Expansion.add cfg queryVec o) ⟨x.alreadyHave, x.scored, []⟩) := by
    rintro n x ⟨hn, hscored, hfrontier⟩
    have hnext : hops - n = hops - (n + 1) + 1 := by omega
    exact ⟨by omega, hnext ▸ near_expand hscored hfrontier⟩
  unfold expandedHits
  split
  · refine wp.seq (wp_expandHops _ (J := J) hstep hstart hw) ?_
    rintro expanded w' ⟨⟨k, x, hx, -, rfl⟩, -⟩ r hr
    exact hmono (hx.2.1 _ (List.mem_map_of_mem (mem_sortDesc.mp hr))) (Nat.sub_le ..)
  · exact fun r hr => hmono (h r hr) (Nat.zero_le _)

/-- What a default search returns with its number of hops and edge threshold passes the default filter, if no
hidden memory is so near to its candidates. -/
theorem visible_of_near {bm25 : Bm25 F} {cfg : LifecycleConfig F} {w : World F} {results : List (SearchResult F)}
    (hdb : w.db = db)
    (hnear : ∀ m ∈ db.memories, db.Near userId o o.graphExpansionHops m.id → m.visible userId o.now)
    (hrun : ((search cfg userId queryVec o).run (exec bm25) w).1 = .ok results) :
    ∀ r ∈ results, ∃ m ∈ db.memories, m.id = r.memoryId ∧ m.visible userId o.now := by
  have hw : w.Reads db False := ⟨hdb, False.elim⟩
  intro r hr
  obtain ⟨-, -, hresult⟩ := wp_ok (wp_search_of (P := db.Near userId o 0) (Q := db.Near userId o o.graphExpansionHops)
    (fun c hc => ⟨c, hc, .refl 0 _⟩) (fun _ _ hw hscored => wp_expandedHits_near hw hscored) hw) hrun r hr
  obtain ⟨m, hm, hid⟩ := hresult.stored
  exact ⟨m, hm, hid, hnear m hm (hid ▸ hresult)⟩

theorem visible_without_hops {bm25 : Bm25 F} {cfg : LifecycleConfig F} {w : World F} (hk : w.db.Keyed)
    {results : List (SearchResult F)} (hhops : o.graphExpansionHops = 0) (hrecall : o.deepRecall = false)
    (hrun : ((search cfg userId queryVec o).run (exec bm25) w).1 = .ok results) :
    ∀ r ∈ results, ∃ m ∈ w.db.memories, m.id = r.memoryId ∧ m.visible userId o.now := by
  refine visible_of_near rfl (fun m hm => ?_) hrun
  rw [hhops]
  rintro ⟨c, ⟨hc, hs⟩, hpath⟩
  obtain rfl := hk.eq_of_id hc hm hpath.zero
  exact visible_of_searchable (hrecall ▸ hs)

end

/-! ### A memory in cold storage -/

def shelf : Db ℚ :=
  let row (id content : String) : MemoryRow ℚ :=
    { MemoryRow.newMinimal id "alice" content "semantic" "fact" 0 with
      embedding := some [1]
      embeddingProvider := some "flat"
      embeddingModel := some "flat-1" }
  { Db.empty with
    memories := [row "mem_tea" "tea", { row "mem_milk" "milk" with isCold := true, coldSince := some 0 }]
    associations := [⟨"mem_tea", "mem_milk", 1 / 2, "explicit", 0, some 0⟩] }

theorem shelf_keyed : shelf.Keyed := by
  unfold Db.Keyed
  decide

theorem searchesVisible_shelf :
    shelf.SearchesVisible (fun _ _ _ => none) .default "alice" "flat" "flat-1" 0 ↔ shelf.HiddenApart "alice" "flat" "flat-1" 0 :=
  searchesVisible_iff (fun _ _ _ => none) .default shelf_keyed "alice" "flat" "flat-1" 0

/-- One hop from tea surfaces the cold memory. -/
theorem search_surfaces_cold : ¬ ∀ (db : Db ℚ) (userId provider model : String) (now : Int), db.Keyed →
    db.SearchesVisible (fun _ _ _ => none) .default userId provider model now := by
  intro h
  let o : SearchOptions ℚ := ⟨5, false, "flat", "flat-1", 0, false, none, 1, 3 / 10, false, 3⟩
  let w : World ℚ := ⟨shelf, [], Oracle.quiet⟩
  have hrun : ((search .default "alice" [1] o).run (exec fun _ _ _ => none) w).1.map
      (fun results => results.map SearchResult.memoryId) = .ok ["mem_tea", "mem_milk"] := by
    decide +kernel
  obtain ⟨results, hresults, hids⟩ := map_ok hrun
  have hmilk : "mem_milk" ∈ results.map SearchResult.memoryId := by rw [hids]; decide
  obtain ⟨r, hr, hid⟩ := List.mem_map.mp hmilk
  obtain ⟨m, hm, hmid, hvisible⟩ :=
    h shelf "alice" "flat" "flat-1" 0 shelf_keyed w [1] o results rfl rfl rfl rfl rfl hresults r hr
  have hhidden : ∀ m ∈ shelf.memories, m.id = "mem_milk" → m.visible "alice" 0 = false := by decide +kernel
  rw [hhidden m hm (hmid.trans hid)] at hvisible
  exact nomatch hvisible

end CognitiveMemory
