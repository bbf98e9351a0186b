import CognitiveMemory.Daemon.Provenance
import CognitiveMemory.Daemon.Reinforcement
import CognitiveMemory.Retention

/-! Bounds of the lifecycle values. Importance, stability and retention floor lie in the unit
interval as long as no update sets one of them to something else, and then retention lies
between its floor and 1. -/

/-- What the decay models rely on of `f64::exp` and `f64::powf`. -/
class Elementary.Decaying (F : Type) [Field F] [LinearOrder F] [Elementary F] : Prop where
  exp_le_one : ∀ x : F, x ≤ 0 → Elementary.exp x ≤ 1
  powf_le_one : ∀ x a : F, 1 ≤ x → a ≤ 0 → Elementary.powf x a ≤ 1

instance : Elementary.Decaying ℝ where
  exp_le_one _ h := Real.exp_le_one_iff.mpr h
  powf_le_one _ _ h h' := Real.rpow_le_one_of_one_le_of_nonpos h h'

instance : Elementary.Decaying ℚ where
  exp_le_one x _ := by
    show (if x = 0 then (1 : ℚ) else 0) ≤ 1
    split <;> norm_num
  powf_le_one x a h h' := by
    show (if x = 1 ∨ a = 0 then (1 : ℚ) else if a = 1 then x else 0) ≤ 1
    split_ifs with h₁ h₂
    · exact le_refl 1
    · linarith
    · norm_num

namespace CognitiveMemory
open Prog
variable {F : Type}

/-! ## Values and rows -/

variable [Field F] [LinearOrder F]

def InUnit (x : F) : Prop := 0 ≤ x ∧ x ≤ 1

instance (x : F) : Decidable (InUnit x) := inferInstanceAs (Decidable (0 ≤ x ∧ x ≤ 1))

structure MemoryRow.Bounded (r : MemoryRow F) : Prop where
  importance : InUnit r.importance
  stability : InUnit r.stability
  retentionFloor : InUnit r.retentionFloor

def Db.Bounded (db : Db F) : Prop := ∀ r ∈ db.memories, r.Bounded

def MemoryUpdate.InRange (upd : MemoryUpdate F) : Prop :=
  ∀ v ∈ [upd.importance, upd.stability, upd.retentionFloor], ∀ x ∈ v, InUnit x

instance (upd : MemoryUpdate F) : Decidable upd.InRange := by
  unfold MemoryUpdate.InRange
  infer_instance

/-- A statement that comes to set a lifecycle value sets it inside the unit interval: Update and
UpdateRetention on a memory the user has, BatchUpdate by its last entry for such a memory. -/
def InRange (p : Requests F) (_ : ℕ) (_ : Caller F) (c : Cmd F) : Prop :=
  p.state.oracle.sqlFault 0 = false →
    match c with
    | .write (.updateMemory user id upd) => (∃ r ∈ p.state.db.memories, owned user id r) → upd.InRange
    | .write (.updateRetentionScores user updates) =>
        ∀ r ∈ p.state.db.memories, r.userId = user → ∀ x ∈ updates.reverse.lookup r.id, InUnit x
    | _ => True

instance (p : Requests F) (i : ℕ) (t : Caller F) (c : Cmd F) : Decidable (InRange p i t c) := by
  unfold InRange
  induction c using Cmd.casesOn with
  | write wr => induction wr using Write.casesOn <;> infer_instance
  | _ => infer_instance

/-! ## What the code writes -/

section

variable [IsStrictOrderedRing F]

theorem inUnit_zero : InUnit (0 : F) := ⟨le_refl 0, zero_le_one⟩

theorem inUnit_clamp (x : F) : InUnit (min (max x 0) 1) := ⟨le_min (le_max_right _ _) zero_le_one, min_le_right _ _⟩

theorem InUnit.min_one {x : F} (h : 0 ≤ x) : InUnit (min x 1) := ⟨le_min h zero_le_one, min_le_right _ _⟩

omit [IsStrictOrderedRing F] in
theorem InUnit.max {x y : F} (hx : InUnit x) (hy : InUnit y) : InUnit (max x y) :=
  ⟨le_max_of_le_left hx.1, max_le hx.2 hy.2⟩

theorem inUnit_coreFloor : InUnit (6 / 10 : F) := by
  constructor <;> norm_num

theorem inUnit_stabilityFromImportance {x : F} (h : InUnit x) : InUnit (stabilityFromImportance x) := by
  obtain ⟨h₀, h₁⟩ := h
  unfold stabilityFromImportance
  constructor <;> linarith

theorem inUnit_mean {xs : List F} (h : ∀ x ∈ xs, InUnit x) : InUnit (xs.sum / xs.length) := by
  have hnonneg : 0 ≤ xs.sum := List.sum_nonneg fun x hx => (h x hx).1
  have hle : xs.sum ≤ xs.length := by
    have hsum := List.sum_le_card_nsmul xs 1 fun x hx => (h x hx).2
    simpa using hsum
  exact ⟨div_nonneg hnonneg (Nat.cast_nonneg _), div_le_one_of_le₀ hle (Nat.cast_nonneg _)⟩

omit [IsStrictOrderedRing F] in
theorem inUnit_foldl_max {α : Type} {f : α → F} {xs : List α} {x : F} (hx : InUnit x) (h : ∀ a ∈ xs, InUnit (f a)) :
    InUnit (xs.foldl (fun m a => max m (f a)) x) := by
  induction xs generalizing x with
  | nil => exact hx
  | cons a xs ih =>
    obtain ⟨ha, hxs⟩ := List.forall_mem_cons.mp h
    exact ih (hx.max ha) hxs

theorem embeddedRow_bounded (app : AppState F) (id userId content category memoryType : String) (vector : List F)
    (now : Int) : (embeddedRow app id userId content category memoryType vector now).Bounded := by
  refine ⟨inUnit_zero, ⟨?_, ?_⟩, ?_⟩
  · show (0 : F) ≤ 1 / 10
    norm_num
  · show (1 / 10 : F) ≤ 1
    norm_num
  · show InUnit (if category = "core" then (6 / 10 : F) else 0)
    split
    · exact inUnit_coreFloor
    · exact inUnit_zero

theorem storedRow_bounded {app : AppState F} {args : StoreMemoryArgs F} {id : String} {vector : List F} {now : Int} :
    (storedRow app args id vector now).Bounded := by
  obtain ⟨h₁, h₂, h₃⟩ := embeddedRow_bounded app id args.userId args.content args.category args.memoryType vector now
  unfold storedRow
  dsimp only
  split
  · exact ⟨h₁, h₂, h₃⟩
  · exact ⟨inUnit_clamp _, inUnit_stabilityFromImportance (inUnit_clamp _), h₃⟩

theorem summaryRow_bounded {app : AppState F} {id userId text : String} {vector : List F} {now : Int}
    {group : List (MemoryRow F)} (h : ∀ r ∈ group, r.Bounded) : (summaryRow app id userId text vector now group).Bounded := by
  have hfloor := (embeddedRow_bounded app id userId text ((group.head?.map MemoryRow.category).getD "") "summary" vector
    now).retentionFloor
  refine ⟨inUnit_foldl_max inUnit_zero fun r hr => (h r hr).importance, ?_, hfloor⟩
  have hmean : InUnit ((group.map MemoryRow.stability).sum / (group.map MemoryRow.stability).length) := inUnit_mean fun x hx => by
    obtain ⟨r, hr, rfl⟩ := List.mem_map.mp hx
    exact (h r hr).stability
  simpa [summaryRow] using hmean

theorem boostedStability_inUnit {cfg : LifecycleConfig F} (hcfg : cfg.Boosting) {source : ResultSource} {now : Int}
    {r : MemoryRow F} (h : r.Bounded) : InUnit (boostedStability cfg source now r) := by
  refine InUnit.min_one (add_nonneg h.stability.1 (mul_nonneg ?_ (spacedRepFactor_nonneg hcfg _ _)))
  cases source with
  | direct => exact hcfg.directBoost
  | graphExpanded => exact hcfg.associativeBoost

end

/-! ## Statements -/

section
variable {db db' : Db F}

theorem Db.Bounded.of_subset (h : db.Bounded) (hsub : db'.memories ⊆ db.memories) : db'.Bounded := fun r hr => h r (hsub hr)

theorem Db.Bounded.modify (h : db.Bounded) {p : MemoryRow F → Bool} {f : MemoryRow F → MemoryRow F}
    (hf : ∀ r, p r → r.Bounded → (f r).Bounded) : (db.modify p f).Bounded := by
  intro r' hr'
  obtain ⟨r, hr, rfl⟩ := List.mem_map.mp hr'
  split
  · exact hf r ‹_› (h r hr)
  · exact h r hr

theorem Db.Bounded.foldl {α : Type} {step : Db F → α → Db F} {xs : List α} (h : db.Bounded)
    (hstep : ∀ d x, x ∈ xs → Db.Bounded d → (step d x).Bounded) : (xs.foldl step db).Bounded := by
  induction xs generalizing db with
  | nil => exact h
  | cons x xs ih => exact ih (hstep db x List.mem_cons_self h) fun d y hy => hstep d y (List.mem_cons_of_mem _ hy)

theorem Db.Bounded.modifyEach {α : Type} {p : α → MemoryRow F → Bool} {f : α → MemoryRow F → MemoryRow F} {xs : List α}
    (h : db.Bounded) (hf : ∀ x ∈ xs, ∀ r, r.Bounded → (f x r).Bounded) : (db.modifyEach p f xs).1.Bounded := by
  rw [modifyEach_fst]
  exact h.foldl fun d x hx hd => hd.modify fun r _ => hf x hx r

omit [Field F] [LinearOrder F] in
/-- What a batch of retention updates leaves in a row: the last entry for its id. -/
theorem memories_updateRetention (db : Db F) (user : String) (updates : List (String × F)) :
    (db.modifyEach (fun u => owned user u.1) (fun u r => { r with retentionFloor := u.2 }) updates).1.memories =
      db.memories.map fun r => if r.userId = user then
        { r with retentionFloor := (updates.reverse.lookup r.id).getD r.retentionFloor } else r := by
  rw [modifyEach_fst]
  induction updates using List.reverseRecOn with
  | nil =>
    refine ((List.map_congr_left fun r _ => ?_).trans (List.map_id' _)).symm
    split <;> rfl
  | append_singleton updates u ih =>
    obtain ⟨id, x⟩ := u
    rw [List.foldl_append, List.foldl_cons, List.foldl_nil]
    unfold Db.modify at ih ⊢
    rw [ih, List.map_map, List.reverse_append, List.reverse_singleton, List.singleton_append]
    refine List.map_congr_left fun r _ => ?_
    simp only [Function.comp_apply, owned, List.lookup_cons]
    by_cases hu : r.userId = user
    · by_cases hid : r.id = id
      · simp [hu, hid]
      · have hne : (r.id == id) = false := beq_eq_false_iff_ne.mpr hid
        simp [hu, hne]
    · simp [hu]

theorem queueConflicts_bounded [IsStrictOrderedRing F] {user newId : String} {now : Int} {hits : List (String × F)}
    (h : db.Bounded) (hq : db.queueConflicts user newId now hits = .ok db') : db'.Bounded := by
  induction hits generalizing db with
  | nil =>
    cases hq
    exact h
  | cons hit hits ih =>
    obtain ⟨hitId, sim⟩ := hit
    rw [Db.queueConflicts] at hq
    split at hq
    · exact ih h hq
    · split at hq
      · obtain ⟨d, hd, hq⟩ := bind_ok hq
        exact ih (h.of_subset fun r hr => (queueConflict_memories hd).1 ▸ hr) hq
      · split at hq
        · refine ih ?_ hq
          refine h.modify fun r _ hr => ⟨hr.importance, ?_, hr.retentionFloor⟩
          have hbump : (0 : F) ≤ 5 / 100 := by norm_num
          show InUnit (min 1 (r.stability + 5 / 100))
          rw [min_comm]
          exact .min_one (add_nonneg hr.stability.1 hbump)
        · split at hq
          · obtain ⟨d, hd, hq⟩ := bind_ok hq
            obtain ⟨d₂, hd₂, hq⟩ := bind_ok hq
            refine ih (h.of_subset fun r hr => ?_) hq
            rwa [(upsertAssociation_memories hd₂).1, (upsertAssociation_memories hd).1] at hr
          · cases hq
            exact h

theorem tickFloorRow_bounded (now : Int) (h : db.Bounded) (row : MemoryRow F × Bool) :
    (db.tickFloorRow now row).Bounded := by
  have hcount : (db.countAtFloor row).Bounded := by
    unfold Db.countAtFloor
    split_ifs
    · exact h.modify fun r _ hr => ⟨hr.1, hr.2, hr.3⟩
    · exact h.modify fun r _ hr => ⟨hr.1, hr.2, hr.3⟩
    · exact h
  unfold Db.tickFloorRow
  dsimp only
  by_cases hcold : row.1.category ≠ "core" ∧ 7 ≤ if row.2 then row.1.daysAtFloor + 1 else 0
  · rw [if_pos hcold]
    exact hcount.modify fun r _ hr => ⟨hr.1, hr.2, hr.3⟩
  · rw [if_neg hcold]
    exact hcount

theorem tickExpireRow_bounded (h : db.Bounded) (row : MemoryRow F) : (db.tickExpireRow row).Bounded := by
  unfold Db.tickExpireRow
  split
  · exact h
  · exact h.modify fun r _ hr => ⟨hr.1, hr.2, hr.3⟩

theorem insertMemory_bounded (h : db.Bounded) {row : MemoryRow F} (hrow : row.Bounded)
    (hdb : db.insertMemory row = .ok db') :
    db'.Bounded := by
  rw [insertMemory_ok hdb]
  intro r hr
  rcases List.mem_append.mp hr with hr | hr
  · exact h r hr
  · rw [List.mem_singleton.mp hr]
    exact hrow

theorem getD_inUnit {v : Option F} {x : F} (hv : ∀ y ∈ v, InUnit y) (hx : InUnit x) : InUnit (v.getD x) := by
  cases v with
  | none => exact hx
  | some y => exact hv y rfl

theorem updateMemory_bounded (h : db.Bounded) {user id : String} {upd : MemoryUpdate F}
    (hupdate : (∃ r ∈ db.memories, owned user id r) → upd.InRange) : (db.updateMemory user id upd).Bounded := by
  have hset : (db.modify (owned user id) upd.set).Bounded := by
    intro r' hr'
    obtain ⟨r, hr, rfl⟩ := List.mem_map.mp hr'
    obtain ⟨h₁, h₂, h₃⟩ := h r hr
    by_cases ho : owned user id r
    · have hin := hupdate ⟨r, hr, ho⟩
      simp only [MemoryUpdate.InRange, List.forall_mem_cons] at hin
      obtain ⟨himp, hstab, hfloor, -⟩ := hin
      rw [if_pos ho]
      exact ⟨getD_inUnit himp h₁, getD_inUnit hstab h₂, getD_inUnit hfloor h₃⟩
    · rw [if_neg ho]
      exact ⟨h₁, h₂, h₃⟩
  exact hset.of_subset fun r hr => (updateMemory_tables db user id upd).1 ▸ hr

/-- The last of several scores for a row is the one that stays. -/
theorem updateRetention_bounded (h : db.Bounded) {user : String} {updates : List (String × F)}
    (hbatch : ∀ r ∈ db.memories, r.userId = user → ∀ x ∈ updates.reverse.lookup r.id, InUnit x) :
    (db.modifyEach (fun u => owned user u.1) (fun u r => { r with retentionFloor := u.2 }) updates).1.Bounded := by
  intro r' hr'
  rw [memories_updateRetention] at hr'
  obtain ⟨r, hr, rfl⟩ := List.mem_map.mp hr'
  split
  · refine ⟨(h r hr).importance, (h r hr).stability, ?_⟩
    exact getD_inUnit (hbatch r hr ‹_›) (h r hr).retentionFloor
  · exact h r hr

theorem cacheInsert_bounded (h : db.Bounded) (row : CacheRow F) : (db.cacheInsert row).Bounded := by
  unfold Db.cacheInsert
  split <;> exact h

variable [IsStrictOrderedRing F]

/-- The statements that set lifecycle values set them inside the unit interval, the others leave
them alone. -/
theorem Write.bounded {w : Write F} {a : w.Res} (h : db.Bounded) (hinsert : ∀ row, w = .insertMemory row → row.Bounded)
    (hboost : ∀ user boosts now session, w = .applyDirectBoost user boosts now session → ∀ b ∈ boosts, InUnit b.2)
    (hupdate : ∀ user id upd, w = .updateMemory user id upd → (∃ r ∈ db.memories, owned user id r) → upd.InRange)
    (hbatch : ∀ user updates, w = .updateRetentionScores user updates →
      ∀ r ∈ db.memories, r.userId = user → ∀ x ∈ updates.reverse.lookup r.id, InUnit x)
    (happly : w.apply db = .ok (a, db')) : db'.Bounded := by
  cases w with
  | insertMemory row =>
    obtain ⟨d, hd, hp⟩ := map_ok happly
    cases hp
    exact insertMemory_bounded h (hinsert row rfl) hd
  | updateMemory user id upd =>
    cases happly
    exact updateMemory_bounded h (hupdate user id upd rfl)
  | deleteMemory | deleteMany | clearUser =>
    cases happly
    exact h.of_subset (List.filter_subset_self _)
  | applyDirectBoost user boosts now session =>
    cases happly
    exact h.modifyEach fun b hb r hr => ⟨hr.importance, hboost _ _ _ _ rfl b hb, hr.retentionFloor⟩
  | promoteToCore user ids =>
    cases happly
    exact h.modifyEach fun _ _ r hr => ⟨hr.importance, hr.stability, inUnit_coreFloor⟩
  | updateRetentionScores user updates =>
    cases happly
    exact updateRetention_bounded h (hbatch user updates rfl)
  | markSuperseded | migrateToCold | migrateToHot | convertToStub =>
    cases happly
    exact h.modify fun r _ hr => ⟨hr.1, hr.2, hr.3⟩
  | migrateToHotMany | supersedeCluster =>
    cases happly
    exact h.modifyEach fun _ _ r hr => ⟨hr.1, hr.2, hr.3⟩
  | upsertEdge a b existing bump now kind =>
    obtain ⟨d, hd, hp⟩ := map_ok happly
    cases hp
    exact h.of_subset fun r hr => (upsertAssociation_memories hd).1 ▸ hr
  | strengthenPairs pairs amount now kind =>
    obtain ⟨d, hd, hp⟩ := map_ok happly
    cases hp
    exact h.of_subset fun r hr => (strengthenPairs_memories hd).1 ▸ hr
  | deleteEdge | deleteEdgeBidirectional =>
    cases happly
    exact h
  | cacheInsert row =>
    cases happly
    exact cacheInsert_bounded h row
  | insertBridgeToken row =>
    simp only [apply] at happly
    split at happly <;> cases happly
    exact h
  | queueConflicts user newId hits now =>
    obtain ⟨d, hd, hp⟩ := map_ok happly
    cases hp
    exact queueConflicts_bounded h hd
  | tickFloor rows now =>
    cases happly
    exact h.foldl fun d row _ hd => tickFloorRow_bounded now hd row
  | tickExpire rows =>
    cases happly
    exact h.foldl fun d row _ hd => tickExpireRow_bounded hd row

/-! ## The resolver -/

theorem supersede_bounded (h : db.Bounded) (winner loser : MemoryRow F) : (db.supersede winner loser).Bounded := by
  have hmark : (db.modify (fun r => r.id == loser.id) fun r => { r with
      isSuperseded := true, supersededBy := some winner.id, contradictedBy := some winner.id }).Bounded :=
    h.modify fun r _ hr => ⟨hr.1, hr.2, hr.3⟩
  unfold Db.supersede
  dsimp only
  split
  · exact hmark.modify fun r _ hr => ⟨hr.1, hr.2, inUnit_zero⟩
  · exact hmark

omit [IsStrictOrderedRing F] in
theorem liftImportance_bounded (h : db.Bounded) {n e : MemoryRow F} (hn : n.Bounded) (he : e.Bounded) :
    (db.liftImportance n e).Bounded := by
  unfold Db.liftImportance
  split
  · exact h.modify fun r _ hr => ⟨hn.importance.max he.importance, hr.2, hr.3⟩
  · exact h

theorem applyLabel_bounded (llm : Bool) (h : db.Bounded) {n e : MemoryRow F} (hn : n.Bounded) (he : e.Bounded)
    (label : ConflictLabel) : (db.applyLabel llm n e label).1.Bounded := by
  cases label with
  | contradiction =>
    simp only [Db.applyLabel]
    split_ifs <;> exact supersede_bounded h _ _
  | update =>
    simp only [Db.applyLabel]
    split_ifs
    · exact supersede_bounded (liftImportance_bounded h hn he) n e
    all_goals exact supersede_bounded h _ _
  | overlap | none_ => exact h

theorem resolving_bounded (llm : Bool) (answers : ℕ → String → Except String String) (pairs : List ConflictPair)
    {acc : Resolving F} (h : acc.db.Bounded) : (pairs.foldl (Resolving.pair llm answers) acc).db.Bounded := by
  induction pairs generalizing acc with
  | nil => exact h
  | cons p pairs ih =>
    refine ih ?_
    show (acc.resolve llm answers p).db.Bounded
    unfold Resolving.resolve
    split
    · rename_i n e hn he
      split
      · exact applyLabel_bounded llm h (h n (List.mem_of_find?_eq_some hn)) (h e (List.mem_of_find?_eq_some he)) _
      · exact h
    · exact h

end

/-! ## Retention -/

section

/-- Base decay rates as a sensible config.toml sets them; nothing checks them. -/
def PositiveRates (rates : List (String × Option F)) : Prop := ∀ rate ∈ rates, ∀ beta ∈ rate.2, 0 < beta

structure LifecycleConfig.Decaying (cfg : LifecycleConfig F) : Prop where
  rates : PositiveRates cfg.baseDecayRates
  gamma : 0 ≤ cfg.powerDecayGamma

variable [IsStrictOrderedRing F]

theorem buildLifecycleConfig_decaying {rates : List (String × Option F)} (h : PositiveRates rates) :
    (buildLifecycleConfig rates).Decaying := by
  constructor
  · intro rate hrate
    rcases List.mem_append.mp hrate with hrate | hrate
    · exact h rate hrate
    · simp only [paperFaithfulLifecycleConfig, LifecycleConfig.default, List.mem_cons, List.not_mem_nil, or_false] at hrate
      rcases hrate with rfl | rfl | rfl | rfl <;> simp
  · show (0 : F) ≤ 7 / 10
    positivity

theorem betaFor_pos {cfg : LifecycleConfig F} (h : PositiveRates cfg.baseDecayRates) {category : String} :
    ∀ beta ∈ cfg.betaFor category, 0 < beta := by
  unfold LifecycleConfig.betaFor
  cases hl : cfg.baseDecayRates.lookup category with
  | none =>
    intro beta hbeta
    obtain rfl : (120 : F) = beta := Option.some.inj hbeta
    positivity
  | some rate =>
    obtain ⟨before, after, hsplit, -⟩ := List.lookup_eq_some_iff.mp hl
    exact h (category, rate) (by simp [hsplit])

theorem retention_bounds [Elementary F] [Elementary.Decaying F] {cfg : LifecycleConfig F} (hcfg : cfg.Decaying)
    {r : MemoryRow F} (hr : r.Bounded) (hstub : r.isStub = false) (now : Int) :
    r.retentionFloor ≤ computeCurrentRetention r now cfg ∧ computeCurrentRetention r now cfg ≤ 1 := by
  have hbeta : ∀ beta ∈ cfg.betaFor r.category, 0 < beta := betaFor_pos hcfg.rates
  unfold computeCurrentRetention computeRetention
  simp only [candidateToState, SearchCandidate.ofRow, hstub, Bool.false_eq_true, if_false]
  split
  · exact ⟨hr.retentionFloor.2, le_refl 1⟩
  · rename_i beta heq
    have hb : 0 < beta := hbeta beta heq
    have hs : 0 < max r.stability (1 / 100) := lt_max_of_lt_right (by norm_num)
    have himp : 0 < min (1 + r.importance * 2) 3 := by
      refine lt_min ?_ (by norm_num)
      linarith [hr.importance.1]
    have hrate : 0 < max r.stability (1 / 100) * min (1 + r.importance * 2) 3 * beta := mul_pos (mul_pos hs himp) hb
    have hdays : (0 : F) ≤ daysSince r.lastAccessedAt now := daysSince_nonneg _ _
    refine ⟨le_max_right _ _, max_le ?_ hr.retentionFloor.2⟩
    split
    · refine Elementary.Decaying.exp_le_one _ ?_
      exact div_nonpos_of_nonpos_of_nonneg (neg_nonpos.mpr hdays) hrate.le
    · refine Elementary.Decaying.powf_le_one _ _ ?_ (neg_nonpos.mpr hcfg.gamma)
      exact le_add_of_nonneg_right (div_nonneg hdays hrate.le)

theorem MemoryRow.Bounded.decays {r : MemoryRow ℝ} (hr : r.Bounded) (hstub : r.isStub = false)
    {cfg : LifecycleConfig ℝ} (hcfg : cfg.Decaying) : (candidateToState (SearchCandidate.ofRow r) cfg).Decays where
  notStub := hstub
  stability := hr.stability
  importance := hr.importance
  floor := hr.retentionFloor
  rate := betaFor_pos hcfg.rates

/-- Left alone, a memory is whole at its last access and fades from then on. -/
theorem currentRetention_fades {r : MemoryRow ℝ} (hr : r.Bounded) (hstub : r.isStub = false)
    {cfg : LifecycleConfig ℝ} (hcfg : cfg.Decaying) : computeCurrentRetention r r.lastAccessedAt cfg = 1 ∧
      Antitone fun now => computeCurrentRetention r now cfg :=
  ⟨computeRetention_fresh hcfg.gamma (hr.decays hstub hcfg) le_rfl,
    computeRetention_antitone hcfg.gamma (hr.decays hstub hcfg)⟩

/-! ## Runs -/

def rowsRead : (c : Cmd F) × c.Res → List (MemoryRow F)
  | ⟨.query (.getManyForUser ..), .ok rows⟩ => rows
  | ⟨.query (.hotEmbedded _), .ok rows⟩ => rows
  | _ => []

def Caller.derivesBounded (t : Caller F) (h : Seen F) (c : Cmd F) : Prop := t.derives h c ∧ t.app.lifecycle.Boosting

structure Bounding (p : Requests F) : Prop where
  obeys : p.Obeys Caller.derivesBounded
  db : p.state.db.Bounded
  reads : ∀ e ∈ answers p.log, ∀ r ∈ rowsRead e, r.Bounded

omit [IsStrictOrderedRing F] in
theorem rowsRead_exec (bm25 : Bm25 F) (c : Cmd F) (w : World F) :
    rowsRead ⟨c, (exec bm25 c w).1⟩ ⊆ w.db.memories := by
  cases c with
  | query q =>
    cases q with
    | getManyForUser user ids =>
      simp only [exec]
      split
      · exact List.nil_subset _
      · exact fun r hr => (List.mem_filter.mp ((List.perm_insertionSort _ _).mem_iff.mp hr)).1
    | hotEmbedded user =>
      simp only [exec]
      split
      · exact List.nil_subset _
      · exact List.filter_subset_self _
    | _ =>
      simp only [exec]
      split <;> exact List.nil_subset _
  | _ => exact List.nil_subset _

theorem Bounding.turn {p : Requests F} (h : Bounding p) (bm25 : Bm25 F) {i : ℕ} {t : Caller F} {c : Cmd F}
    (hn : p.next? i = some (t, c)) (hg : InRange p i t c) : Bounding (p.turn (exec bm25) i) := by
  obtain ⟨hd, hboosting⟩ : t.derivesBounded (Pool.seen p.log i) c := h.obeys.allowed hn
  have hread : ∀ e ∈ Pool.seen p.log i, ∀ r ∈ rowsRead e, r.Bounded := fun e he => h.reads e ((seen_sublist p.log i).subset he)
  have hdb : (exec bm25 c p.state).2.db.Bounded := by
    cases hfault : p.state.oracle.sqlFault 0 with
    | true =>
      rw [exec_fault bm25 hfault]
      exact h.db
    | false =>
      have hset := hg hfault
      refine exec_keeps bm25 h.db ?_ fun llm pairs _ => resolving_bounded llm _ pairs h.db
      rintro wr a db rfl happly
      refine Write.bounded h.db ?_ ?_ ?_ ?_ happly
      · rintro row rfl
        obtain ⟨-, ⟨args, id, vector, now, rfl⟩ | ⟨user, rows, marked, group, id, text, vector, now, hw, hsub, rfl⟩⟩ := hd
        · exact storedRow_bounded
        · exact summaryRow_bounded fun r hr => hread _ hw.answered r (hsub.subset hr)
      · rintro user boosts now session rfl b hb
        obtain ⟨ids, rows, retrieved, hans, rfl⟩ := hd
        obtain ⟨r, hr, rfl⟩ := List.mem_map.mp hb
        exact boostedStability_inUnit hboosting (hread _ hans r (List.mem_filter.mp hr).1)
      · rintro user id upd rfl
        exact hset
      · rintro user updates rfl
        exact hset
  obtain ⟨k, -, hturn⟩ := Pool.turn_some (x := exec bm25) hn
  refine ⟨h.obeys.turn i, hturn ▸ hdb, ?_⟩
  rw [hturn]
  intro e he
  rcases List.mem_cons.mp he with rfl | he
  · exact fun r hr => h.db r (rowsRead_exec bm25 c p.state hr)
  · exact h.reads e he

omit [IsStrictOrderedRing F] in
/-- A statement that sets a value out of range leaves it in a row. -/
theorem inRange_of_bounded (bm25 : Bm25 F) {p : Requests F} {i : ℕ} {t : Caller F} {c : Cmd F}
    (hn : p.next? i = some (t, c)) (h : (p.turn (exec bm25) i).state.db.Bounded) : InRange p i t c := by
  obtain ⟨k, -, hturn⟩ := Pool.turn_some (x := exec bm25) hn
  rw [hturn] at h
  intro hfault
  cases c with
  | write wr =>
    cases wr with
    | updateMemory user id upd =>
      rintro ⟨r, hr, ho⟩
      simp only [exec, hfault, Bool.false_eq_true, if_false, Write.apply, World.answer] at h
      have hset : (upd.set r).Bounded := by
        refine h _ ?_
        rw [(updateMemory_tables p.state.db user id upd).1]
        exact List.mem_map.mpr ⟨r, hr, if_pos ho⟩
      have hget : ∀ {v : Option F} {x : F}, InUnit (v.getD x) → ∀ y ∈ v, InUnit y := by
        intro v x hv y hy
        cases hy
        exact hv
      obtain ⟨himp, hstab, hfloor⟩ := hset
      unfold MemoryUpdate.InRange
      simp only [List.forall_mem_cons, List.not_mem_nil, false_imp_iff, implies_true, and_true]
      exact ⟨hget himp, hget hstab, hget hfloor⟩
    | updateRetentionScores user updates =>
      intro r hr hu x hx
      simp only [exec, hfault, Bool.false_eq_true, if_false, Write.apply, World.answer] at h
      have hset := h { r with retentionFloor := (updates.reverse.lookup r.id).getD r.retentionFloor } (by
        rw [memories_updateRetention]
        exact List.mem_map.mpr ⟨r, hr, if_pos hu⟩)
      have hfloor := hset.retentionFloor
      rw [hx] at hfloor
      exact hfloor
    | _ => trivial
  | _ => trivial

variable [Elementary F]

/-- The retention reported for a memory that is no stub, whenever it is asked for. -/
def Db.RetentionBounded (cfg : LifecycleConfig F) (db : Db F) : Prop :=
  ∀ r ∈ db.memories, r.isStub = false → ∀ now : Int,
    r.retentionFloor ≤ computeCurrentRetention r now cfg ∧ computeCurrentRetention r now cfg ≤ 1

/-- With decay rates above zero, all states of a run have bounded values and retentions if and
only if no Update, BatchUpdate or UpdateRetention of the run sets a value out of range. -/
theorem bounded_iff_inRange [Elementary.Decaying F] {bm25 : Bm25 F} {w : World F} (h : w.Start)
    {rates : List (String × Option F)} (hrates : PositiveRates rates) {ts : List (Caller F)}
    (hts : ∀ t ∈ ts, t.app.lifecycle = buildLifecycleConfig rates) {schedule : List ℕ} :
    (∀ is js, schedule = is ++ js → ((accepted w ts).play (exec bm25) is).state.db.Bounded ∧
        ((accepted w ts).play (exec bm25) is).state.db.RetentionBounded (buildLifecycleConfig rates)) ↔
      (accepted w ts).Meets (exec bm25) InRange schedule := by
  constructor
  · exact fun hall => Pool.meets_of_prefixes (J := fun _ => True) (P := fun w' => w'.db.Bounded) (fun _ _ _ _ _ _ => trivial)
      (fun p i t c _ hn _ hb => inRange_of_bounded bm25 hn hb) trivial fun is js heq => (hall is js heq).1
  · intro hmeets is js heq
    have hstart : Bounding (accepted w ts) := by
      refine ⟨accepted_obeys fun t ht => ?_, ?_, fun e he => nomatch he⟩
      · have hboosting : t.app.lifecycle.Boosting := hts t ht ▸ buildLifecycleConfig_boosting rates
        exact (issues_derived t).mono fun _ _ hd => ⟨hd, hboosting⟩
      · show w.db.Bounded
        rw [h.db]
        exact fun r hr => nomatch hr
    have hdb := (Pool.play_prefixes (J := Bounding) (fun p i t c hp hn hg => hp.turn bm25 hn hg) hmeets hstart heq).db
    exact ⟨hdb, fun r hr hstub now => retention_bounds (buildLifecycleConfig_decaying hrates) (hdb r hr) hstub now⟩

end

/-! ### An Update of the importance -/

def AppState.shipped : AppState ℚ := { AppState.flat with lifecycle := buildLifecycleConfig [] }

def remember : Caller ℚ := ⟨.shipped, "alice", .memory (.store ⟨"alice", "tea", "semantic", "fact", "{}", none⟩)⟩

def rate (importance : ℚ) : Caller ℚ :=
  ⟨.shipped, "alice", .memory (.update { userId := "alice", id := "mem_", importance := some importance })⟩

theorem remember_rate_shipped (importance : ℚ) :
    ∀ t ∈ [remember, rate importance], t.app.lifecycle = buildLifecycleConfig [] := by simp [remember, rate, AppState.shipped]

theorem bounded_after_rating :
    ((accepted World.quiet [remember, rate (1 / 2)]).play (exec Bm25.none) (List.replicate 8 0 ++ [1])).state.db.Bounded ∧
      ((accepted World.quiet [remember, rate (1 / 2)]).play (exec Bm25.none)
        (List.replicate 8 0 ++ [1])).state.db.RetentionBounded (buildLifecycleConfig []) :=
  (bounded_iff_inRange quiet_start (by simp [PositiveRates]) (remember_rate_shipped _)).mpr (by decide +kernel) _ []
    (List.append_nil _).symm

/-- Update stores the importance as it comes. -/
theorem importance_above_one : ¬ ∀ (w : World ℚ) (ts : List (Caller ℚ)) (schedule : List ℕ), w.Start →
    (∀ t ∈ ts, t.app.lifecycle = buildLifecycleConfig []) →
    ((accepted w ts).play (exec Bm25.none) schedule).state.db.Bounded := by
  intro h
  have hall := h World.quiet [remember, rate 2] (List.replicate 8 0 ++ [1]) quiet_start (remember_rate_shipped _)
  have hrow : ∃ r ∈ ((accepted World.quiet [remember, rate 2]).play (exec Bm25.none)
      (List.replicate 8 0 ++ [1])).state.db.memories, ¬ r.importance ≤ 1 := by
    decide +kernel
  obtain ⟨r, hr, habove⟩ := hrow
  exact habove (hall r hr).importance.2

end CognitiveMemory
