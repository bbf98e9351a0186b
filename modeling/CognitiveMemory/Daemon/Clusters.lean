import CognitiveMemory.Daemon.Consolidation
import CognitiveMemory.Lib.Wp

/-! The consolidation pass of an undisturbed Tick: which memories it clusters, and what it leaves
when a cluster fails. -/

namespace CognitiveMemory
open Prog
variable {F : Type}

/-! ## Clusters -/

structure RowCluster (F : Type) where
  summary : MemoryRow F
  members : List (MemoryRow F)

def RowCluster.has (c : RowCluster F) (id : String) : Bool := c.members.any (·.id == id)

def folded (summaryId : String) (now : Int) (r : MemoryRow F) : MemoryRow F :=
  { r with isSuperseded := true, supersededBy := some summaryId, isCold := true, coldSince := some now }

/-- The memories once these clusters are applied: their members are superseded by the summaries and
cold, the summaries are there, and all other memories are as they were. -/
def consolidated (now : Int) (clusters : List (RowCluster F)) (rows : List (MemoryRow F)) : List (MemoryRow F) :=
  rows.map (fun r => match clusters.find? (·.has r.id) with
    | some c => folded c.summary.id now r
    | none => r) ++ clusters.map RowCluster.summary

section

section
variable [Field F] [LinearOrder F] [Elementary F]

def Fading (app : AppState F) (now : Int) (m : MemoryRow F) : Prop :=
  m.isCold = false ∧ m.isStub = false ∧ m.isSuperseded = false ∧ computeCurrentRetention m now app.lifecycle < 20 / 100

structure FadedGroup (app : AppState F) (now : Int) (rows : List (MemoryRow F)) (userId category : String)
    (group : List (MemoryRow F)) : Prop where
  five : group.length = 5
  distinct : (group.map MemoryRow.id).Nodup
  alike : ∀ m ∈ group, m ∈ rows ∧ m.userId = userId ∧ m.category = category
  fading : ∀ m ∈ group, Fading app now m
  near : ∃ head rest, group = head :: rest ∧
    ∀ m ∈ rest, 7 / 10 ≤ cosineSimilarityF32 (decodeEmbedding head) (decodeEmbedding m)

def RowCluster.Sound (app : AppState F) (now : Int) (rows : List (MemoryRow F)) (c : RowCluster F) : Prop :=
  FadedGroup app now rows c.summary.userId c.summary.category c.members

structure Consolidates (app : AppState F) (now : Int) (rows : List (MemoryRow F)) (clusters : List (RowCluster F))
    (rows' : List (MemoryRow F)) : Prop where
  sound : ∀ c ∈ clusters, c.Sound app now rows
  disjoint : clusters.Pairwise fun c d => ∀ m ∈ d.members, c.has m.id = false
  few : clusters.length ≤ 5
  new : ∀ c ∈ clusters, ∀ r ∈ rows, r.id ≠ c.summary.id
  applied : rows' = consolidated now clusters rows

/-- The pass ended in an error with these clusters applied. If it was the database, between the two
statements of a further cluster, then the summary of that one is there and its members are not marked. -/
def Stopped (app : AppState F) (now : Int) (rows : List (MemoryRow F)) (clusters : List (RowCluster F)) (e : HandlerError)
    (rows' : List (MemoryRow F)) : Prop :=
  Consolidates app now rows clusters rows' ∨ e = .storage .io ∧ ∃ (c : RowCluster F) (rows'' : List (MemoryRow F)),
    Consolidates app now rows clusters rows'' ∧ c.Sound app now rows ∧
      (∀ d ∈ clusters, ∀ m ∈ c.members, d.has m.id = false) ∧ rows' = rows'' ++ [c.summary]

end

variable {app : AppState F} {now : Int} {rows rows' : List (MemoryRow F)} {clusters : List (RowCluster F)}

theorem consolidated_nil : consolidated now [] rows = rows := by
  simp [consolidated]

theorem consolidated_append {c : RowCluster F} (hdisjoint : ∀ d ∈ clusters, ∀ m ∈ c.members, d.has m.id = false)
    (hnew : ∀ d ∈ clusters, c.has d.summary.id = false) :
    consolidated now (clusters ++ [c]) rows =
      ((consolidated now clusters rows).map fun r => if c.has r.id then folded c.summary.id now r else r) ++ [c.summary] := by
  unfold consolidated
  rw [List.map_append, List.map_append, List.map_map, ← List.append_assoc]
  have hsummaries : ((clusters.map RowCluster.summary).map fun r => if c.has r.id then folded c.summary.id now r else r) =
      clusters.map RowCluster.summary := by
    rw [List.map_map]
    refine List.map_congr_left fun d hd => ?_
    rw [Function.comp_apply, hnew d hd]
    rfl
  have hrows : ∀ r : MemoryRow F, (match (clusters ++ [c]).find? (·.has r.id) with
      | some c => folded c.summary.id now r
      | none => r) = (fun r => if c.has r.id then folded c.summary.id now r else r) (match clusters.find? (·.has r.id) with
        | some c => folded c.summary.id now r
        | none => r) := by
    intro r
    rw [List.find?_append]
    cases hfound : clusters.find? (·.has r.id) with
    | some d =>
      -- A memory of an earlier cluster is not in this one.
      have hd : d.has r.id := List.find?_some (p := fun d : RowCluster F => d.has r.id) hfound
      have hc : c.has r.id = false := by
        rw [Bool.eq_false_iff]
        intro hc
        obtain ⟨m, hm, hid⟩ := List.any_eq_true.mp hc
        have hapart := hdisjoint d (List.mem_of_find?_eq_some hfound) m hm
        rw [eq_of_beq hid, hd] at hapart
        cases hapart
      show folded d.summary.id now r = if c.has r.id then _ else _
      rw [hc]
      rfl
    | none =>
      cases hc : c.has r.id <;> simp [hc]
  rw [hsummaries]
  congr 2
  exact List.map_congr_left fun r _ => hrows r

theorem has_eq (c : RowCluster F) (id : String) : (c.members.map MemoryRow.id).contains id = c.has id := by
  rw [RowCluster.has, List.contains_eq_any_beq, List.any_map]
  congr 1
  funext m
  exact Bool.beq_comm

variable [Field F] [LinearOrder F]

theorem Consolidates.kept [Elementary F] (h : Consolidates app now rows clusters rows') {r : MemoryRow F} (hr : r ∈ rows) :
    ∃ r' ∈ rows', r'.id = r.id := by
  rw [h.applied]
  refine ⟨_, List.mem_append_left _ (List.mem_map_of_mem hr), ?_⟩
  split <;> rfl

theorem Consolidates.owner [Elementary F] (h : Consolidates app now rows clusters rows')
    (hkeyed : (rows.map MemoryRow.id).Nodup)
    {r r' : MemoryRow F} (hr : r ∈ rows) (hr' : r' ∈ rows') (hid : r'.id = r.id) : r'.userId = r.userId := by
  rw [h.applied] at hr'
  rcases List.mem_append.mp hr' with hr' | hr'
  · obtain ⟨r₀, hr₀, rfl⟩ := List.mem_map.mp hr'
    have hsame : r₀ = r := by
      refine List.inj_on_of_nodup_map hkeyed hr₀ hr ?_
      rw [← hid]
      split <;> rfl
    rw [hsame]
    split <;> rfl
  · obtain ⟨c, hc, rfl⟩ := List.mem_map.mp hr'
    exact absurd hid.symm (h.new c hc r hr)

theorem Consolidates.append [Elementary F] (h : Consolidates app now rows clusters rows') {c : RowCluster F}
    (hsound : c.Sound app now rows)
    (hdisjoint : ∀ d ∈ clusters, ∀ m ∈ c.members, d.has m.id = false) (hlen : clusters.length < 5)
    (hnew : ∀ r ∈ rows', r.id ≠ c.summary.id) :
    Consolidates app now rows (clusters ++ [c])
      ((rows'.map fun r => if c.has r.id then folded c.summary.id now r else r) ++ [c.summary]) := by
  have hother : ∀ d ∈ clusters, c.has d.summary.id = false := by
    intro d hd
    rw [RowCluster.has, List.any_eq_false]
    intro m hm
    rw [beq_iff_eq]
    exact h.new d hd m (hsound.alike m hm).1
  refine ⟨?_, ?_, ?_, ?_, ?_⟩
  · intro d hd
    rcases List.mem_append.mp hd with hd | hd
    · exact h.sound d hd
    · rw [List.mem_singleton.mp hd]
      exact hsound
  · rw [List.pairwise_append]
    refine ⟨h.disjoint, List.pairwise_singleton _ _, fun d hd e he => ?_⟩
    rw [List.mem_singleton.mp he]
    exact hdisjoint d hd
  · rw [List.length_append]
    exact hlen
  · intro d hd r hr
    rcases List.mem_append.mp hd with hd | hd
    · exact h.new d hd r hr
    · rw [List.mem_singleton.mp hd]
      obtain ⟨r', hr', hid⟩ := h.kept hr
      exact hid ▸ hnew r' hr'
  · rw [consolidated_append hdisjoint hother, h.applied]

/-! ## One cluster -/

variable {bm25 : Bm25 F} {w : World F} {userId category : String} {before : List (RowCluster F)}
  {within : RowCluster F → Prop} {group : List (MemoryRow F)}

theorem memories_quiet (bm25 : Bm25 F) (c : Cmd F) (w : World F) (hc : c.quiet) :
    (exec bm25 c w).2.db.memories = w.db.memories := by
  refine exec_keeps (P := fun db => db.memories = w.db.memories) bm25 rfl ?_ ?_
  · intro wr a db hwrite happly
    rw [hwrite] at hc
    cases wr with
    | cacheInsert row =>
      cases happly
      unfold Db.cacheInsert
      split <;> rfl
    | _ => exact hc.elim
  · intro llm pairs hresolve
    rw [hresolve] at hc
    exact hc.elim

theorem ends_insertSummary {row : MemoryRow F} : (sqlx (write (.insertMemory row))).ends (exec bm25) (fun r w' =>
    match r with
    | .ok _ => w'.db.memories = w.db.memories ++ [row] ∧ ∀ r ∈ w.db.memories, r.id ≠ row.id
    | .error _ => w'.db.memories = w.db.memories) w := by
  refine .mapError ((ends_write (c := .insertMemory row)).imp fun answer w' h => ?_)
  cases answer with
  | error e => exact congrArg Db.memories h.1
  | ok a =>
    obtain ⟨d, hd, hp⟩ := map_ok h.2
    cases hp
    exact ⟨congrArg Db.memories (insertMemory_ok hd), insertMemory_fresh hd⟩

theorem ends_supersedeCluster {summaryId : String} {ids : List String}
    (howned : ∀ r ∈ w.db.memories, r.id ∈ ids → r.userId = userId) :
    (sqlx (write (.supersedeCluster userId summaryId ids now))).ends (exec bm25) (fun r w' =>
      match r with
      | .ok _ => w'.db.memories = w.db.memories.map fun r => if ids.contains r.id then folded summaryId now r else r
      | .error e => e = .storage .io ∧ w'.db.memories = w.db.memories) w := by
  rw [ends_run, sqlx, run_mapError]
  cases hfault : w.oracle.sqlFault 0 with
  | true =>
    rw [run_write_fault hfault]
    exact ⟨rfl, rfl⟩
  | false =>
    rw [run_write hfault (c := .supersedeCluster userId summaryId ids now) rfl]
    show (w.db.modifyEach (owned userId) (fun _ => folded summaryId now) ids).1.memories = _
    rw [modifyEach_fst]
    generalize w.db = db at howned ⊢
    induction ids generalizing db with
    | nil => simp
    | cons id ids ih =>
      have hfolded : ∀ r : MemoryRow F, (if owned userId id r then folded summaryId now r else r).id = r.id ∧
          (if owned userId id r then folded summaryId now r else r).userId = r.userId := by
        intro r
        split <;> exact ⟨rfl, rfl⟩
      rw [List.foldl_cons, ih]
      · show (db.memories.map fun r => if owned userId id r then folded summaryId now r else r).map _ = _
        rw [List.map_map]
        refine List.map_congr_left fun r hr => ?_
        rw [Function.comp_apply, (hfolded r).1, List.contains_cons]
        unfold owned
        cases hid : r.id == id with
        | false => simp
        | true =>
          have huser : r.userId = userId := howned r hr (eq_of_beq hid ▸ List.mem_cons_self)
          simp only [huser, BEq.rfl, Bool.and_true, Bool.true_or, if_true]
          split <;> rfl
      · intro r' hr' hid
        obtain ⟨r, hr, rfl⟩ := List.mem_map.mp hr'
        rw [(hfolded r).1] at hid
        rw [(hfolded r).2]
        exact howned r hr (List.mem_cons_of_mem _ hid)

variable [Elementary F]

/-- A cluster is applied as a whole or, unless the database fails between its statements, not at all. -/
theorem ends_compressCluster (h : Consolidates app now rows before w.db.memories)
    (hgroup : FadedGroup app now rows userId category group)
    (hkeyed : (rows.map MemoryRow.id).Nodup) (hfree : ∀ d ∈ before, ∀ m ∈ group, d.has m.id = false) (hlen : before.length < 5) :
    (compressCluster app userId group now).ends (exec bm25) (fun r w' =>
      match r with
      | .ok _ => ∃ c : RowCluster F, c.members = group ∧ c.summary.userId = userId ∧ c.summary.category = category ∧
          Consolidates app now rows (before ++ [c]) w'.db.memories
      | .error e => Stopped app now rows before e w'.db.memories) w := by
  let J : World F → Prop := fun w' => w'.db.memories = w.db.memories
  have hJ : ∀ c (w' : World F), c.quiet → J w' → J (exec bm25 c w').2 :=
      fun c w' hc hw' => (memories_quiet bm25 c w' hc).trans hw'
  have hstill : ∀ {w' : World F} (e : HandlerError), J w' → Stopped app now rows before e w'.db.memories :=
    fun e hw' => .inl (hw' ▸ h)
  refine .seq (P := fun _ => J) ((only_call trivial).ends hJ rfl) (fun answer w₁ hw₁ => ?_) fun e w₁ => hstill e
  refine .seq (P := fun _ => J) ((only_mapError (only_ofExcept _)).ends hJ hw₁) (fun text w₂ hw₂ => ?_) fun e w₂ => hstill e
  refine .seq (P := fun _ => J) (only_embed.ends hJ hw₂) (fun vector w₃ hw₃ => ?_) fun e w₃ => hstill e
  refine .seq (P := fun _ => J) ((only_freshMemoryId trivial).ends hJ hw₃) (fun id w₄ hw₄ => ?_) fun e w₄ => hstill e
  let c : RowCluster F := ⟨summaryRow app id userId text vector now group, group⟩
  have hcategory : c.summary.category = category := by
    obtain ⟨head, rest, heq, -⟩ := hgroup.near
    have hhead : head ∈ group := heq ▸ List.mem_cons_self
    show (group.head?.map MemoryRow.category).getD "" = category
    rw [heq]
    exact (hgroup.alike head hhead).2.2
  have hsound : c.Sound app now rows := by
    unfold RowCluster.Sound
    rw [hcategory]
    exact hgroup
  refine .seq ends_insertSummary (fun _ w₅ hw₅ => ?_) fun e w₅ hw₅ => hstill e (hw₅.trans hw₄)
  obtain ⟨hstored, hnew⟩ := hw₅
  rw [hw₄] at hstored hnew
  have howned : ∀ r ∈ w₅.db.memories, r.id ∈ group.map MemoryRow.id → r.userId = userId := by
    intro r hr hid
    obtain ⟨m, hm, hmid⟩ := List.mem_map.mp hid
    obtain ⟨hrow, huser, -⟩ := hgroup.alike m hm
    rw [hstored] at hr
    rcases List.mem_append.mp hr with hr | hr
    · exact (h.owner hkeyed hrow hr hmid.symm).trans huser
    · rw [List.mem_singleton.mp hr]
      rfl
  refine .seq (ends_supersedeCluster howned) (fun _ w₆ hw₆ => ?_) fun e w₆ hw₆ => ?_
  · refine ⟨c, rfl, rfl, hcategory, ?_⟩
    have happlied := h.append hsound hfree hlen hnew
    have hother : c.has c.summary.id = false := by
      rw [RowCluster.has, List.any_eq_false]
      intro m hm
      obtain ⟨r, hr, hid⟩ := h.kept (hgroup.alike m hm).1
      rw [beq_iff_eq, ← hid]
      exact hnew r hr
    have hsummary : (if c.has c.summary.id then folded id now c.summary else c.summary) = c.summary := by
      rw [hother]
      rfl
    have hmarked : ∀ r : MemoryRow F, (if (group.map MemoryRow.id).contains r.id then folded id now r else r) =
        if c.has r.id then folded id now r else r := fun r => by rw [← has_eq c]
    rw [hw₆, hstored, List.map_congr_left fun r _ => hmarked r, List.map_append, List.map_singleton]
    change Consolidates app now rows _ (_ ++ [if c.has c.summary.id then folded id now c.summary else c.summary])
    rw [hsummary]
    exact happlied
  · obtain ⟨rfl, hsame⟩ := hw₆
    exact .inr ⟨rfl, c, _, h, hsound, hfree, hsame.trans hstored⟩

/-! ## The pass -/

/-- The pass ended with these clusters, all applied unless it stopped. -/
def Ended (app : AppState F) (now : Int) (rows : List (MemoryRow F)) (clusters : List (RowCluster F))
    (r : Except HandlerError ℕ) (rows' : List (MemoryRow F)) : Prop :=
  match r with
  | .ok n => Consolidates app now rows clusters rows' ∧ n = clusters.length
  | .error e => Stopped app now rows clusters e rows'

def Clustered (app : AppState F) (now : Int) (rows : List (MemoryRow F)) (before : List (RowCluster F))
    (within : RowCluster F → Prop) (r : Except HandlerError ℕ) (rows' : List (MemoryRow F)) : Prop :=
  ∃ clusters, (∀ c ∈ clusters, within c) ∧ Ended app now rows (before ++ clusters) r rows'

theorem Clustered.done (h : Consolidates app now rows before rows') :
    Clustered app now rows before within (.ok before.length) rows' := by
  refine ⟨[], by simp, ?_⟩
  rw [List.append_nil]
  exact ⟨h, rfl⟩

theorem Clustered.failed {e : HandlerError} (h : Stopped app now rows before e rows') :
    Clustered app now rows before within (.error e) rows' := by
  refine ⟨[], by simp, ?_⟩
  rw [List.append_nil]
  exact h

theorem Clustered.after {r : Except HandlerError ℕ} (h : Clustered app now rows (before ++ clusters) within r rows')
    (hclusters : ∀ c ∈ clusters, within c) : Clustered app now rows before within r rows' := by
  obtain ⟨more, hmore, hrest⟩ := h
  refine ⟨clusters ++ more, fun c hc => ?_, ?_⟩
  · exact (List.mem_append.mp hc).elim (hclusters c) (hmore c)
  · rw [← List.append_assoc]
    exact hrest

theorem Clustered.mono {within' : RowCluster F → Prop} {r : Except HandlerError ℕ}
    (h : Clustered app now rows before within r rows')
    (himp : ∀ c, within c → within' c) : Clustered app now rows before within' r rows' := by
  obtain ⟨clusters, hwithin, hrest⟩ := h
  exact ⟨clusters, fun c hc => himp c (hwithin c hc), hrest⟩

theorem fadedGroup {head : MemoryRow F} {rest : List (MemoryRow F)} {used : List String}
    (hmems : ∀ m ∈ head :: rest, (m ∈ rows ∧ m.userId = userId ∧ m.category = category) ∧ Fading app now m)
    (hnodup : ((head :: rest).map MemoryRow.id).Nodup) (hhead : head.id ∉ used)
    (hfull : consolidationGroupSize ≤ (growGroup (decodeEmbedding head) used rest [head]).length) :
    FadedGroup app now rows userId category (growGroup (decodeEmbedding head) used rest [head]) ∧
      ∀ m ∈ growGroup (decodeEmbedding head) used rest [head], m ∈ head :: rest ∧ m.id ∉ used := by
  obtain ⟨picks, heq, hsub, hpicked, hsize⟩ := growGroup_picks (decodeEmbedding head) used rest [head]
  rw [heq] at hfull ⊢
  have hgroup : ([head] ++ picks).Sublist (head :: rest) := hsub.cons_cons head
  have hlen : ([head] ++ picks).length = 5 := by
    have hle := hsize (show 1 < 5 by decide)
    rw [← List.length_append] at hle
    exact Nat.le_antisymm hle hfull
  constructor
  · refine ⟨hlen, hnodup.sublist (hgroup.map _), fun m hm => (hmems m (hgroup.subset hm)).1,
      fun m hm => (hmems m (hgroup.subset hm)).2, head, picks, rfl, fun m hm => (hpicked m hm).2⟩
  · refine fun m hm => ⟨hgroup.subset hm, ?_⟩
    rcases List.mem_cons.mp hm with rfl | hm
    · exact hhead
    · exact (hpicked m hm).1

theorem ends_consolidateCategory (hkeyed : (rows.map MemoryRow.id).Nodup) (mems : List (MemoryRow F)) {used : List String}
    (h : Consolidates app now rows before w.db.memories)
    (hmems : ∀ m ∈ mems, (m ∈ rows ∧ m.userId = userId ∧ m.category = category) ∧ Fading app now m)
    (hnodup : (mems.map MemoryRow.id).Nodup) (hused : ∀ c ∈ before, ∀ m ∈ mems, c.has m.id → m.id ∈ used) :
    (consolidateCategory app userId now mems used before.length).ends (exec bm25) (fun r w' =>
      Clustered app now rows before (fun c => c.summary.userId = userId ∧ c.summary.category = category) r w'.db.memories) w := by
  induction mems generalizing before used w with
  | nil => exact .done h
  | cons head rest ih =>
    have hskip : (consolidateCategory app userId now rest used before.length).ends (exec bm25) (fun r w' =>
        Clustered app now rows before (fun c => c.summary.userId = userId ∧ c.summary.category = category) r w'.db.memories) w :=
      ih h (fun m hm => hmems m (List.mem_cons_of_mem _ hm)) (List.nodup_cons.mp hnodup).2
        fun c hc m hm => hused c hc m (List.mem_cons_of_mem _ hm)
    rw [consolidateCategory]
    split
    · exact .done h
    rename_i hroom
    split
    · exact hskip
    rename_i hhead
    dsimp only
    split
    case isFalse => exact hskip
    rename_i hfull
    have hfree : head.id ∉ used := by
      simp only [Bool.or_eq_true, not_or, Bool.not_eq_true] at hhead
      simpa using hhead.1
    obtain ⟨hgroup, hpicked⟩ := fadedGroup hmems hnodup hfree hfull
    have hapart : ∀ d ∈ before, ∀ m ∈ growGroup (decodeEmbedding head) used rest [head], d.has m.id = false := by
      intro d hd m hm
      rw [Bool.eq_false_iff]
      intro hhas
      exact (hpicked m hm).2 (hused d hd m (hpicked m hm).1 hhas)
    refine .seq (ends_compressCluster h hgroup hkeyed hapart (not_le.mp hroom)) (fun _ w₁ hdone => ?_)
        fun e w₁ hstop => .failed hstop
    obtain ⟨c, hmembers, huser, hcategory, hw₁⟩ := hdone
    have hcount : before.length + 1 = (before ++ [c]).length := by
      rw [List.length_append, List.length_singleton]
    rw [hcount]
    refine (ih hw₁ (fun m hm => hmems m (List.mem_cons_of_mem _ hm)) (List.nodup_cons.mp hnodup).2 ?_).imp
        fun r w' hr => hr.after ?_
    · intro d hd m hm hhas
      rcases List.mem_append.mp hd with hd | hd
      · exact List.mem_append_left _ (hused d hd m (List.mem_cons_of_mem _ hm) hhas)
      · rw [List.mem_singleton.mp hd, RowCluster.has, hmembers] at hhas
        obtain ⟨m', hm', hid⟩ := List.any_eq_true.mp hhas
        exact List.mem_append_right _ (List.mem_map.mpr ⟨m', hm', eq_of_beq hid⟩)
    · intro d hd
      rw [List.mem_singleton.mp hd]
      exact ⟨huser, hcategory⟩

theorem ends_consolidateMembers (hkeyed : (rows.map MemoryRow.id).Nodup) {mems : List (MemoryRow F)}
    (h : Consolidates app now rows before w.db.memories)
    (hmems : ∀ m ∈ mems, (m ∈ rows ∧ m.userId = userId ∧ m.category = category) ∧ Fading app now m)
    (hnodup : (mems.map MemoryRow.id).Nodup) (hfree : ∀ c ∈ before, ∀ m ∈ mems, c.has m.id = false) :
    (consolidateMembers app userId now mems before.length).ends (exec bm25) (fun r w' =>
      Clustered app now rows before (fun c => c.summary.userId = userId ∧ c.summary.category = category) r w'.db.memories) w := by
  unfold consolidateMembers
  split
  · exact .done h
  · refine ends_consolidateCategory hkeyed mems h hmems hnodup fun c hc m hm hhas => ?_
    rw [hfree c hc m hm] at hhas
    cases hhas

theorem RowCluster.Sound.apart {c : RowCluster F} (hc : c.Sound app now rows) (hkeyed : (rows.map MemoryRow.id).Nodup)
    {m : MemoryRow F} (hm : m ∈ rows) (hother : m.category ≠ c.summary.category) : c.has m.id = false := by
  rw [RowCluster.has, List.any_eq_false]
  intro m' hm' hid
  obtain ⟨hrow, -, hcategory⟩ := hc.alike m' hm'
  rw [List.inj_on_of_nodup_map hkeyed hrow hm (eq_of_beq hid)] at hcategory
  exact hother hcategory

theorem Ended.sound {r : Except HandlerError ℕ} (h : Ended app now rows clusters r rows') : ∀ c ∈ clusters,
    c.Sound app now rows := by
  cases r with
  | ok n => exact h.1.sound
  | error e =>
    rcases h with h | ⟨_, _, _, h, _⟩
    · exact h.sound
    · exact h.sound

theorem ends_consolidateCategories (hkeyed : (rows.map MemoryRow.id).Nodup) {fading : List (MemoryRow F)}
    (categories : List String) (h : Consolidates app now rows before w.db.memories)
    (hfading : ∀ m ∈ fading, (m ∈ rows ∧ m.userId = userId) ∧ Fading app now m) (hnodup : (fading.map MemoryRow.id).Nodup)
    (hcategories : categories.Nodup) (hfree : ∀ c ∈ before, ∀ m ∈ fading, m.category ∈ categories → c.has m.id = false) :
    (consolidateCategories app userId now fading categories before.length).ends (exec bm25) (fun r w' =>
      Clustered app now rows before (fun c => c.summary.userId = userId) r w'.db.memories) w := by
  induction categories generalizing before w with
  | nil => exact .done h
  | cons category categories ih =>
    obtain ⟨hcategory, hrest⟩ := List.nodup_cons.mp hcategories
    have hone : (consolidateMembers app userId now (fading.filter (·.category == category)) before.length).ends (exec bm25)
        (fun r w' => Clustered app now rows before (fun c => c.summary.userId = userId ∧ c.summary.category = category) r
          w'.db.memories) w := by
      refine ends_consolidateMembers hkeyed h (fun m hm => ?_) (hnodup.sublist (List.filter_sublist.map _)) fun c hc m hm => ?_
      · obtain ⟨hmem, hcat⟩ := List.mem_filter.mp hm
        obtain ⟨⟨hrow, huser⟩, hfades⟩ := hfading m hmem
        exact ⟨⟨hrow, huser, eq_of_beq hcat⟩, hfades⟩
      · obtain ⟨hmem, hcat⟩ := List.mem_filter.mp hm
        exact hfree c hc m hmem (eq_of_beq hcat ▸ List.mem_cons_self)
    refine .seq hone (fun created w₁ hw₁ => ?_) fun e w₁ hw₁ => hw₁.mono fun c hc => hc.1
    obtain ⟨clusters, hwithin, hended⟩ := hw₁
    have hsound := hended.sound
    obtain ⟨hw₁, rfl⟩ := hended
    refine (ih hw₁ hrest fun c hc m hm hcat => ?_).imp fun r w' hr => hr.after fun c hc => (hwithin c hc).1
    rcases List.mem_append.mp hc with hc' | hc'
    · exact hfree c hc' m hm (List.mem_cons_of_mem _ hcat)
    · refine (hsound c hc).apart hkeyed (hfading m hm).1.1 fun heq => ?_
      rw [heq, (hwithin c hc').2] at hcat
      exact hcategory hcat

/-- The hot memories of a user without clusters are those it had before the pass. -/
theorem Consolidates.hot (h : Consolidates app now rows before rows') (huser : ∀ c ∈ before, c.summary.userId ≠ userId) :
    (rows'.filter fun r => r.userId == userId && r.hot && r.embedding.isSome) =
      rows.filter fun r => (r.userId == userId && r.hot && r.embedding.isSome) && before.all fun c => !c.has r.id := by
  have hsummaries : ((before.map RowCluster.summary).filter fun r => r.userId == userId && r.hot && r.embedding.isSome) = [] := by
    rw [List.filter_eq_nil_iff]
    intro r hr
    obtain ⟨c, hc, rfl⟩ := List.mem_map.mp hr
    simp [huser c hc]
  rw [h.applied, consolidated, List.filter_append, hsummaries, List.append_nil]
  generalize rows = all
  induction all with
  | nil => rfl
  | cons r all ih =>
    rw [List.map_cons, List.filter_cons, List.filter_cons, ih]
    cases hfound : before.find? (·.has r.id) with
    | some c =>
      have hmem := List.mem_of_find?_eq_some hfound
      have hhas : c.has r.id := List.find?_some (p := fun c : RowCluster F => c.has r.id) hfound
      have hall : (before.all fun c => !c.has r.id) = false := by
        rw [List.all_eq_false]
        exact ⟨c, hmem, by simp [hhas]⟩
      simp [hall, folded, MemoryRow.hot]
    | none =>
      have hall : (before.all fun c => !c.has r.id) = true := by
        rw [List.all_eq_true]
        intro c hc
        simpa using List.find?_eq_none.mp hfound c hc
      simp [hall]

theorem ends_consolidateUsers (hkeyed : (rows.map MemoryRow.id).Nodup) (users : List String)
    (h : Consolidates app now rows before w.db.memories) (husers : users.Nodup)
    (hfree : ∀ c ∈ before, c.summary.userId ∉ users) :
    (consolidateUsers app now users before.length).ends (exec bm25) (fun r w' =>
      Clustered app now rows before (fun _ => True) r w'.db.memories) w := by
  induction users generalizing before w with
  | nil => exact .done h
  | cons userId users ih =>
    obtain ⟨huser, hrest⟩ := List.nodup_cons.mp husers
    rw [consolidateUsers]
    split
    · exact .done h
    -- what the query reads now, with the earlier users' clusters already marked
    let read := w.db.memories.filter fun r => r.userId == userId && r.hot && r.embedding.isSome
    have hread : (sqlx (query (.hotEmbedded userId)) : HandlerM F (List (MemoryRow F))).ends (exec bm25) (fun r w' =>
        (∀ rows', r = .ok rows' → rows' = read) ∧ w'.db.memories = w.db.memories) w := by
      rw [ends_run, sqlx, run_mapError]
      cases hfault : w.oracle.sqlFault 0 with
      | true =>
        rw [run_query_fault hfault]
        refine ⟨fun rows' hok => ?_, rfl⟩
        cases hok
      | false =>
        rw [run_query hfault (q := .hotEmbedded userId) rfl]
        refine ⟨fun rows' hok => ?_, rfl⟩
        cases hok
        rfl
    refine .seq hread (fun rows' w₁ hw₁ => ?_) fun e w₁ hw₁ => .failed (.inl (hw₁.2 ▸ h))
    obtain ⟨hrows, hsame⟩ := hw₁
    have hrows' := hrows rows' rfl
    have hthere := h.hot fun c hc => (List.ne_of_not_mem_cons (hfree c hc))
    have hsub : rows'.Sublist rows := by
      rw [hrows']
      show (w.db.memories.filter _).Sublist rows
      rw [hthere]
      exact List.filter_sublist
    have hmem : ∀ m ∈ rows', m.userId = userId ∧ m.isCold = false ∧ m.isStub = false ∧ m.isSuperseded = false ∧
        m.embedding.isSome ∧ ∀ c ∈ before, c.has m.id = false := by
      intro m hm
      rw [hrows'] at hm
      change m ∈ w.db.memories.filter _ at hm
      rw [hthere] at hm
      obtain ⟨-, hkeep⟩ := List.mem_filter.mp hm
      simpa [MemoryRow.hot, and_assoc] using hkeep
    -- `consolidate_user` keeps what is nearly forgotten
    let fading := rows'.filter fun r => decide (computeCurrentRetention r now app.lifecycle < 20 / 100)
    have hfading : ∀ m ∈ fading, (m ∈ rows ∧ m.userId = userId) ∧ Fading app now m := by
      intro m hm
      obtain ⟨hrow, hlow⟩ := List.mem_filter.mp hm
      obtain ⟨howner, hcold, hstub, hsuperseded, -⟩ := hmem m hrow
      exact ⟨⟨hsub.subset hrow, howner⟩, hcold, hstub, hsuperseded, of_decide_eq_true hlow⟩
    have hids : (fading.map MemoryRow.id).Nodup := hkeyed.sublist ((List.filter_sublist.trans hsub).map _)
    have horder : (Prog.call (Cmd.order (fading.map MemoryRow.category).dedup) : HandlerM F (List String)).ends (exec bm25)
        (fun r w' => (∀ l, r = .ok l → l.Nodup) ∧ w'.db.memories = w.db.memories) w₁ := by
      refine ⟨fun l hl => ?_, hsame⟩
      cases hl
      exact (w₁.oracle.order_perm 0 _).nodup_iff.mpr (List.nodup_dedup _)
    refine .seq horder (fun categories w₂ hw₂ => ?_) fun e w₂ hw₂ => .failed (.inl (hw₂.2 ▸ h))
    refine .seq (ends_consolidateCategories hkeyed categories (hw₂.2 ▸ h) hfading hids (hw₂.1 categories rfl) ?_)
      (fun created w₃ hw₃ => ?_) fun e w₃ hw₃ => hw₃.mono fun _ _ => trivial
    · intro c hc m hm _
      obtain ⟨-, -, -, -, -, hapart⟩ := hmem m (List.mem_filter.mp hm).1
      exact hapart c hc
    · obtain ⟨clusters, hwithin, hw₃, rfl⟩ := hw₃
      refine (ih hw₃ hrest fun c hc => ?_).imp fun r w' hr => hr.after fun _ _ => trivial
      rcases List.mem_append.mp hc with hc | hc
      · exact fun hlater => hfree c hc (List.mem_cons_of_mem _ hlater)
      · rw [hwithin c hc]
        exact huser

theorem ends_consolidateAtTick (hkeyed : w.db.Keyed) :
    (consolidateAtTick app now).ends (exec bm25)
      (fun r w' => ∃ clusters, Ended app now w.db.memories clusters r w'.db.memories) w := by
  have hnone : Consolidates app now w.db.memories [] w.db.memories :=
    ⟨by simp, .nil, Nat.zero_le 5, by simp, consolidated_nil.symm⟩
  unfold consolidateAtTick
  split
  · exact ⟨[], hnone, rfl⟩
  have hread : (sqlx (query .hotUsers) : HandlerM F (List String)).ends (exec bm25) (fun r w' =>
      (∀ users, r = .ok users → users.Nodup) ∧ w'.db.memories = w.db.memories) w := by
    rw [ends_run, sqlx, run_mapError]
    cases hfault : w.oracle.sqlFault 0 with
    | true =>
      rw [run_query_fault hfault]
      exact ⟨nofun, rfl⟩
    | false =>
      rw [run_query hfault (q := .hotUsers) rfl]
      refine ⟨fun users hok => ?_, rfl⟩
      cases hok
      exact List.nodup_dedup _
  refine .seq hread (fun users w₁ hw₁ => ?_) fun e w₁ hw₁ => ⟨[], .inl (hw₁.2 ▸ hnone)⟩
  have hbegin : Consolidates app now w.db.memories [] w₁.db.memories := by rwa [hw₁.2]
  refine (ends_consolidateUsers hkeyed users hbegin (hw₁.1 users rfl) (by simp)).imp fun r w' hr => ?_
  obtain ⟨clusters, -, hended⟩ := hr
  exact ⟨clusters, hended⟩

/-! ## A Tick -/

def housekeeping (app : AppState F) : HandlerM F (Int × ℕ) := do
  let now ← unixNow
  let hotRows : List (MemoryRow F) ← sqlx (query .hotRows)
  let rows := hotRows.map fun r => (r, atFloor app now r)
  let _ ← sqlx (write (.tickFloor rows now))
  let staleCold : List (MemoryRow F) ← sqlx (query (.staleCold (now - 180 * 86400)))
  let _ ← sqlx (write (.tickExpire staleCold))
  let _ ← resolveConflicts app
  Pure.pure (now, (rows.filter Prod.snd).length)

theorem handleTick_eq : handleTick app =
    (housekeeping app).bind fun p => (consolidateAtTick app p.1).bind fun _ => Prog.pure (.tick p.2) := by
  simp only [handleTick, housekeeping, bind_eq, pure_eq, bind_assoc', pure_bind']

/-- A Tick either fails before its last pass, or ends as that pass does, with these clusters. -/
def TickClusters (bm25 : Bm25 F) (app : AppState F) (w : World F) : Prop :=
  match (housekeeping app).run (exec bm25) w with
  | (.error e, w₁) => (handleTick app).run (exec bm25) w = (.error e, w₁)
  | (.ok (now, n), w₁) => ∃ r clusters w', (handleTick app).run (exec bm25) w = (r.map fun _ => .tick n, w') ∧
      Ended app now w₁.db.memories clusters r w'.db.memories

/-- What one Tick clusters: five memories each, all different, of one user and category, hot and
faded, close to the first; and each cluster is applied as a whole or not at all, unless the database
fails within it. No other memory changes. -/
theorem tick_clusters (hkeyed : w.db.Keyed) : TickClusters bm25 app w := by
  have hkept : ((housekeeping app).run (exec bm25) w).2.db.Keyed := by
    rw [← runFor_of_steps_le (x := exec bm25) le_rfl]
    exact runFor_keeps (exec bm25) (J := fun w' => w'.db.Keyed) (fun c w' => keyed_exec bm25) _ _ hkeyed
  unfold TickClusters
  rw [handleTick_eq]
  cases hrun : (housekeeping app).run (exec bm25) w with
  | mk r w₁ =>
    rw [hrun] at hkept
    cases r with
    | error e => exact run_bind_error _ hrun
    | ok p =>
      have hends : (consolidateAtTick app p.1).ends (exec bm25)
          (fun r w' => ∃ clusters, Ended app p.1 w₁.db.memories clusters r w'.db.memories) w₁ := ends_consolidateAtTick hkept
      obtain ⟨clusters, hended⟩ := ends_run.mp hends
      refine ⟨_, clusters, _, ?_, hended⟩
      rw [run_bind_ok _ hrun, run_bind]
      generalize (consolidateAtTick app p.1).run (exec bm25) w₁ = done
      obtain ⟨_ | _, _⟩ := done <;> rfl

end

/-! ### Ten notes on tea, and an LLM that fails at the second five -/

def tenTeas : World ℚ :=
  ⟨{ Db.empty with
      memories := (List.range 10).map fun n =>
        { MemoryRow.newMinimal ("tea_" ++ String.ofList (List.replicate n 'a')) "alice" "green tea" "semantic" "fact" 0 with
          embedding := some [1] } },
    [], { Oracle.quiet with clock := fun _ => 10 ^ 9, llm := fun n _ => if n = 0 then .ok "tea" else .error "no model" }⟩

/-- The first five are summarized, the others stay as they were. -/
theorem tick_clusters_tenTeas :
    (((handleTick consolidate.app).run (exec Bm25.none) tenTeas).2.db.memories.map fun r => (r.isSuperseded, r.isCold)) =
      List.replicate 5 (true, true) ++ List.replicate 6 (false, false) ∧
    TickClusters Bm25.none consolidate.app tenTeas := by
  have hkeyed : tenTeas.db.Keyed := by
    unfold Db.Keyed
    decide +kernel
  refine ⟨by decide +kernel, ?_⟩
  -- closed, or the tick would be run once more
  generalize tenTeas = w at hkeyed ⊢
  exact tick_clusters hkeyed

end CognitiveMemory
