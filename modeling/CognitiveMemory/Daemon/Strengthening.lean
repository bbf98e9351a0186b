import CognitiveMemory.Daemon.Pooled
import Mathlib.Algebra.Order.Field.Basic
import Mathlib.Tactic.NormNum
import Mathlib.Tactic.Ring

/-! Concurrent requests that strengthen an edge: Link, StoreBatch and Search under every
interleaving of their statements. -/

namespace CognitiveMemory
open Prog
variable {F : Type}

/-! ## Weights -/

variable [Field F] [LinearOrder F]

/-- The stored weight of an edge, 0 when it is absent. -/
def Db.weightOf (db : Db F) (a b : String) : F := ((db.edge? a b).map AssociationRow.weight).getD 0

variable [IsStrictOrderedRing F]

theorem newWeight_mem (existing : Option F) (bump : F) : 0 ≤ newWeight existing bump ∧ newWeight existing bump ≤ 1 := by
  unfold newWeight
  split <;> exact ⟨le_max_right _ _, max_le (min_le_right _ _) zero_le_one⟩

/-- Every stored weight is between 0 and 1. -/
def Db.Weighted (db : Db F) : Prop := ∀ e ∈ db.associations, 0 ≤ e.weight ∧ e.weight ≤ 1

theorem Db.Weighted.weightOf {db : Db F} (h : db.Weighted) (a b : String) : 0 ≤ db.weightOf a b ∧ db.weightOf a b ≤ 1 := by
  unfold Db.weightOf
  cases he : db.edge? a b with
  | none => exact ⟨le_refl _, zero_le_one⟩
  | some e => exact h e (List.mem_of_find?_eq_some he)

omit [IsStrictOrderedRing F] in
theorem weighted_upsert {db db' : Db F} {row : AssociationRow F} {f : AssociationRow F → AssociationRow F}
    (h : db.Weighted) (hrow : 0 ≤ row.weight ∧ row.weight ≤ 1)
    (hf : ∀ e : AssociationRow F, 0 ≤ e.weight ∧ e.weight ≤ 1 → 0 ≤ (f e).weight ∧ (f e).weight ≤ 1)
    (hup : db.upsertAssociation row f = .ok db') : db'.Weighted := by
  unfold Db.upsertAssociation at hup
  split at hup
  · cases hup
    intro e' he'
    obtain ⟨e, he, rfl⟩ := List.mem_map.mp he'
    split
    · exact hf e (h e he)
    · exact h e he
  · split at hup <;> cases hup
    intro e he
    rcases List.mem_append.mp he with he | he
    · exact h e he
    · rw [List.mem_singleton.mp he]
      exact hrow

theorem strengthened_mem {w amount : F} (hw : 0 ≤ w ∧ w ≤ 1) (ha : 0 ≤ amount) :
    0 ≤ min 1 (w + amount) ∧ min 1 (w + amount) ≤ 1 :=
  ⟨le_min zero_le_one (add_nonneg hw.1 ha), min_le_left _ _⟩

theorem weighted_strengthen {es : List (String × String)} {amount : F} {now : Int} {kind : String} {db db' : Db F}
    (ha : 0 ≤ amount) (h : db.Weighted) (hes : es.foldlM (Db.strengthenEdge amount now kind) db = .ok db') :
    db'.Weighted := by
  induction es generalizing db with
  | nil =>
    cases hes
    exact h
  | cons e es ih =>
    rw [List.foldlM_cons] at hes
    obtain ⟨d, hd, hes⟩ := bind_ok hes
    refine ih (weighted_upsert h ?_ ?_ hd) hes
    · exact ⟨le_max_right _ _, max_le (min_le_right _ _) zero_le_one⟩
    · exact fun e he => strengthened_mem he ha

theorem synapticTagWeight_mem {sim : F} (h : 4 / 10 ≤ sim) : 0 ≤ synapticTagWeight sim ∧ synapticTagWeight sim ≤ 1 := by
  have hhalf : (5 / 10 : F) ≤ 1 := by norm_num
  refine ⟨le_min ?_ (by norm_num), (min_le_right _ _).trans hhalf⟩
  exact add_nonneg (by norm_num) (mul_nonneg (sub_nonneg.mpr h) (by norm_num))

theorem weighted_queueConflicts {userId newId : String} {now : Int} {hits : List (String × F)} {db db' : Db F}
    (h : db.Weighted) (hq : db.queueConflicts userId newId now hits = .ok db') : db'.Weighted := by
  induction hits generalizing db with
  | nil =>
    cases hq
    exact h
  | cons hit hits ih =>
    obtain ⟨hitId, sim⟩ := hit
    rw [Db.queueConflicts] at hq
    split at hq
    · exact ih h hq
    · split at hq
      · obtain ⟨d, hd, hq⟩ := bind_ok hq
        refine ih (fun e he => h e ?_) hq
        exact (queueConflict_memories hd).2.1 ▸ he
      · split at hq
        · refine ih ?_ hq
          exact h
        · split at hq
          · rename_i hsim
            obtain ⟨d, hd, hq⟩ := bind_ok hq
            obtain ⟨d₂, hd₂, hq⟩ := bind_ok hq
            have hw := synapticTagWeight_mem hsim
            exact ih (weighted_upsert (weighted_upsert h hw (fun _ _ => hw) hd) hw (fun _ _ => hw) hd₂) hq
          · cases hq
            exact h

theorem weighted_exec (bm25 : Bm25 F) {spec : EmbeddingSpec F} {t : Caller F} {w : World F} {c : Cmd F} (h : w.db.Weighted)
    (hmay : t.may spec w c) : (exec bm25 c w).2.db.Weighted := by
  cases c with
  | write wr =>
    simp only [exec]
    split
    · exact h
    · split
      · rename_i a db happly
        by_cases hw : wr.writesEdges
        · cases wr with
          | upsertEdge s d existing bump now kind =>
            obtain ⟨db', hdb', hp⟩ := map_ok happly
            cases hp
            exact weighted_upsert h (newWeight_mem _ _) (fun _ _ => newWeight_mem _ _) hdb'
          | strengthenPairs pairs amount now kind =>
            obtain ⟨db', hdb', hp⟩ := map_ok happly
            cases hp
            exact weighted_strengthen (by rw [hmay.1]; norm_num) h hdb'
          | queueConflicts userId newId hits now =>
            obtain ⟨db', hdb', hp⟩ := map_ok happly
            cases hp
            exact weighted_queueConflicts h hdb'
          | _ => exact hw.elim
        · exact fun e he => h e (Write.associations_subset hw happly he)
      · exact h
  | resolveConflicts llm pairs =>
    simp only [exec]
    split
    · exact h
    · have hassoc := (resolving_effects llm w.oracle.llm pairs ⟨w.db, 0, 0⟩).2.1
      exact fun e he => h e (hassoc ▸ he)
  | _ => exact h

theorem Reachable.weighted [Elementary F] {bm25 : Bm25 F} {w : World F} (h : Reachable bm25 anyCaller anyStep w) :
    w.db.Weighted :=
  h.keeps any_serves (fun w₀ h₀ => by simp [Db.Weighted, h₀.db, Db.empty])
    fun _ _ _ _ hJ hall _ => weighted_exec bm25 hJ hall

/-! ## Landed bumps -/

/-- What an executed command adds to an edge: the bump of a create_or_strengthen, the amount of
every pair of a transaction that names the edge. -/
def landedBy (a b : String) : Event (Cmd F) Cmd.Res → F
  | ⟨_, .write (.upsertEdge s d _ bump _ _), .ok _⟩ => if (s, d) = (a, b) then bump else 0
  | ⟨_, .write (.strengthenPairs pairs amount _ _), .ok _⟩ => (bothWays pairs).count (a, b) * amount
  | _ => 0

omit [LinearOrder F] [IsStrictOrderedRing F] in
theorem landedBy_error (a b : String) (i : ℕ) (wr : Write F) (e : SqlError) :
    landedBy a b ⟨i, .write wr, .error e⟩ = 0 := by
  cases wr <;> rfl

def landed (a b : String) (log : List (Event (Cmd F) Cmd.Res)) : F := (log.map (landedBy a b)).sum

def Write.strengthens : Write F → Prop
  | .upsertEdge _ _ _ bump .. => 0 ≤ bump
  | .strengthenPairs _ amount .. => 0 ≤ amount
  | .insertMemory _ | .cacheInsert _ | .applyDirectBoost .. | .promoteToCore .. | .migrateToHotMany .. => True
  | _ => False

def Cmd.strengthens : Cmd F → Prop
  | .write w => w.strengthens
  | .resolveConflicts .. => False
  | _ => True

omit [IsStrictOrderedRing F] in
theorem Cmd.quiet.strengthens {c : Cmd F} (h : c.quiet) : c.strengthens := by
  cases c with
  | write w => cases w <;> trivial
  | resolveConflicts => exact h
  | _ => trivial

theorem min_one_add {w b : F} (hb : 0 ≤ b) : min 1 (min 1 w + b) = min 1 (w + b) := by
  rcases le_total 1 w with h | h
  · rw [min_eq_left h, min_eq_left (le_add_of_nonneg_right hb), min_eq_left (h.trans (le_add_of_nonneg_right hb))]
  · rw [min_eq_right h]

theorem newWeight_eq (existing : Option F) {bump : F} (hw : 0 ≤ existing.getD 0) (hb : 0 ≤ bump) :
    newWeight existing bump = min 1 (existing.getD 0 + bump) := by
  cases existing with
  | none => simp [newWeight, min_comm, hb]
  | some w =>
    have hsum : 0 ≤ w + bump := add_nonneg hw hb
    simp [newWeight, min_comm, hsum]

theorem weightOf_upsertEdge {db db' : Db F} {s d : String} {existing : Option F} {bump : F} {now : Int} {kind : String}
    (a b : String) (h : db.Weighted) (hb : 0 ≤ bump)
    (hcur : (s, d) = (a, b) → existing = (db.edge? a b).map AssociationRow.weight)
    (hup : db.upsertEdge s d existing bump now kind = .ok db') :
    db'.weightOf a b = min 1 (db.weightOf a b + if (s, d) = (a, b) then bump else 0) := by
  have hold := h.weightOf a b
  have hedge := edge?_upsert hup (fun _ => ⟨rfl, rfl⟩) a b
  unfold Db.weightOf at hold ⊢
  rw [hedge]
  by_cases hab : (s, d) = (a, b)
  · rw [if_pos hab, if_pos hab]
    have hnew := newWeight_eq existing (by rw [hcur hab]; exact hold.1) hb
    rw [hcur hab] at hnew ⊢
    rw [← hnew]
    cases db.edge? a b <;> rfl
  · rw [if_neg hab, if_neg hab, add_zero, min_eq_right hold.2]

theorem weightOf_strengthen {es : List (String × String)} {amount : F} {now : Int} {kind : String} {db db' : Db F}
    (a b : String) (h : db.Weighted) (ha : 0 ≤ amount)
    (hes : es.foldlM (Db.strengthenEdge amount now kind) db = .ok db') :
    db'.weightOf a b = min 1 (db.weightOf a b + es.count (a, b) * amount) := by
  induction es generalizing db with
  | nil =>
    cases hes
    simp [min_eq_right (h.weightOf a b).2]
  | cons e es ih =>
    rw [List.foldlM_cons] at hes
    obtain ⟨d, hd, hes⟩ := bind_ok hes
    have hone : d.weightOf a b = min 1 (db.weightOf a b + if e = (a, b) then amount else 0) := by
      have hold := h.weightOf a b
      have hedge := edge?_upsert hd (fun _ => ⟨rfl, rfl⟩) a b
      unfold Db.weightOf at hold ⊢
      rw [hedge]
      by_cases hab : e = (a, b)
      · rw [if_pos hab, if_pos hab]
        cases db.edge? a b with
        | none => simp [min_comm, ha]
        | some e => rfl
      · rw [if_neg hab, if_neg hab, add_zero, min_eq_right hold.2]
    have hkeep : d.Weighted := by
      refine weighted_upsert h ?_ ?_ hd
      · exact ⟨le_max_right _ _, max_le (min_le_right _ _) zero_le_one⟩
      · exact fun e he => strengthened_mem he ha
    have hrest : (0 : F) ≤ es.count (a, b) * amount := mul_nonneg (Nat.cast_nonneg _) ha
    rw [ih hkeep hes, hone, min_one_add hrest, List.count_cons]
    by_cases hab : e = (a, b)
    · simp only [hab, beq_self_eq_true, if_true, Nat.cast_add, Nat.cast_one, add_mul, one_mul]
      congr 1
      ring
    · simp [hab]

theorem landedBy_nonneg (a b : String) (e : Event (Cmd F) Cmd.Res) (h : e.command.strengthens) : 0 ≤ landedBy a b e := by
  unfold landedBy
  split
  · split
    · exact h
    · exact le_refl _
  · exact mul_nonneg (Nat.cast_nonneg _) h
  · exact le_refl _

/-- A create_or_strengthen writes over the weight it has read, not over a later one. -/
def Current (a b : String) (p : Requests F) (_ : ℕ) (_ : Caller F) : Cmd F → Prop
  | .write (.upsertEdge s d existing ..) => (s, d) = (a, b) → existing = (p.state.db.edge? a b).map AssociationRow.weight
  | _ => True

instance (a b : String) (p : Requests F) (i : ℕ) (t : Caller F) (c : Cmd F) : Decidable (Current a b p i t c) := by
  unfold Current
  induction c using Cmd.casesOn with
  | write wr => induction wr using Write.casesOn <;> infer_instance
  | _ => infer_instance

theorem weight_write {wr : Write F} {db db' : Db F} {r : wr.Res} (i : ℕ) (a b : String) (h : db.Weighted)
    (hw : wr.strengthens) (hcur : ∀ s d existing bump now kind, wr = .upsertEdge s d existing bump now kind →
      (s, d) = (a, b) → existing = (db.edge? a b).map AssociationRow.weight) (happly : wr.apply db = .ok (r, db')) :
    db'.Weighted ∧ db'.weightOf a b = min 1 (db.weightOf a b + landedBy a b ⟨i, .write wr, .ok r⟩) := by
  have hsame : db'.associations = db.associations → landedBy a b ⟨i, .write wr, .ok r⟩ = 0 →
      db'.Weighted ∧ db'.weightOf a b = min 1 (db.weightOf a b + landedBy a b ⟨i, .write wr, .ok r⟩) := by
    intro hassoc hzero
    refine ⟨fun e he => h e (hassoc ▸ he), ?_⟩
    have hweight : db'.weightOf a b = db.weightOf a b := by unfold Db.weightOf Db.edge?; rw [hassoc]
    rw [hzero, add_zero, hweight, min_eq_right (h.weightOf a b).2]
  cases wr with
  | upsertEdge s d existing bump now kind =>
    obtain ⟨d', hd, hp⟩ := map_ok happly
    cases hp
    refine ⟨weighted_upsert h (newWeight_mem _ _) (fun _ _ => newWeight_mem _ _) hd, ?_⟩
    exact weightOf_upsertEdge a b h hw (hcur _ _ _ _ _ _ rfl) hd
  | strengthenPairs pairs amount now kind =>
    obtain ⟨d', hd, hp⟩ := map_ok happly
    cases hp
    exact ⟨weighted_strengthen hw h hd, weightOf_strengthen a b h hw hd⟩
  | insertMemory row =>
    obtain ⟨d', hd, hp⟩ := map_ok happly
    cases hp
    rw [insertMemory_ok hd] at hsame ⊢
    exact hsame rfl rfl
  | cacheInsert row =>
    cases happly
    refine hsame ?_ rfl
    unfold Db.cacheInsert
    split <;> rfl
  | applyDirectBoost | promoteToCore | migrateToHotMany =>
    cases happly
    exact hsame (sameRest_modifyEach _ _ _ _).associations rfl
  | _ => exact hw.elim

theorem weight_exec (bm25 : Bm25 F) {w : World F} {c : Cmd F} (i : ℕ) (a b : String) (h : w.db.Weighted)
    (hc : c.strengthens) (hcur : ∀ s d existing bump now kind, c = .write (.upsertEdge s d existing bump now kind) →
      (s, d) = (a, b) → existing = (w.db.edge? a b).map AssociationRow.weight) :
    (exec bm25 c w).2.db.Weighted ∧
      (exec bm25 c w).2.db.weightOf a b = min 1 (w.db.weightOf a b + landedBy a b ⟨i, c, (exec bm25 c w).1⟩) := by
  have hnothing : min 1 (w.db.weightOf a b + 0) = w.db.weightOf a b := by
    rw [add_zero, min_eq_right (h.weightOf a b).2]
  cases c with
  | write wr =>
    simp only [exec]
    split
    · exact ⟨h, by rw [landedBy_error, hnothing]; rfl⟩
    · split
      · exact weight_write i a b h hc (fun s d existing bump now kind heq => hcur s d existing bump now kind (by rw [heq])) ‹_›
      · exact ⟨h, by rw [landedBy_error, hnothing]; rfl⟩
  | resolveConflicts => exact hc.elim
  | _ => exact ⟨h, hnothing.symm⟩

/-! ## Link, StoreBatch and Search -/

section

omit [IsStrictOrderedRing F] in
theorem only_storeEntries {app : AppState F} {userId : String} {now : Int} (entries : List BatchMemoryEntry) :
    (storeEntries app userId now entries).Only Cmd.strengthens := by
  induction entries with
  | nil => trivial
  | cons entry entries ih =>
    refine only_bind (only_embed.imp fun _ => Cmd.quiet.strengthens) fun vector => ?_
    refine only_bind (only_freshMemoryId trivial) fun id => ?_
    exact only_bind (only_mapError (only_write trivial)) fun _ => only_bind ih fun _ => trivial

omit [IsStrictOrderedRing F] in
theorem only_restoreCold {userId : String} {ids : List String} :
    (restoreCold userId ids : HandlerM F Unit).Only Cmd.strengthens :=
  only_bind (only_mapError (only_getManyForUser trivial)) fun _ =>
    only_bind (only_mapError (only_unlessEmpty (only_write trivial))) fun _ => trivial

theorem only_strengthenResults {app : AppState F} {userId : String} {results : List (SearchResult F)} {now : Int} :
    (strengthenResults app userId results now).Only Cmd.strengthens := by
  have htenth : (0 : F) ≤ 1 / 10 := by norm_num
  refine only_bind ?_ fun _ =>
    only_bind (only_mapError (only_unlessEmpty (only_write htenth))) fun _ => trivial
  refine only_bind (only_mapError (only_getManyForUser trivial)) fun rows => ?_
  refine only_bind ⟨trivial, fun _ => trivial⟩ fun u => ?_
  refine only_bind (only_mapError (only_unlessEmpty (only_write trivial))) fun _ => ?_
  exact only_bind (only_mapError (only_unlessEmpty (only_write trivial))) fun _ => trivial

/-- A Link or StoreBatch with a weight that is not negative, or a Search. -/
def Caller.strengthens (t : Caller F) : Prop :=
  match t.request with
  | .memory (.link args) => 0 ≤ args.strength
  | .memory (.storeBatch args) => 0 ≤ args.initialLinkWeight
  | .memory (.search _) => True
  | _ => False

variable [Elementary F]

theorem only_strengthening {t : Caller F} (h : t.strengthens) :
    (handleRequest t.app t.request t.user).Only Cmd.strengthens := by
  have hedge : ∀ (a b : String) (bump : F) (now : Int) (kind : String), 0 ≤ bump →
      (createOrStrengthen a b bump now kind).Only Cmd.strengthens := fun _ _ _ _ _ hb =>
    only_createOrStrengthen trivial fun _ => hb
  unfold Caller.strengthens at h
  split at h
  · rename_i args hreq
    rw [hreq]
    exact only_bind only_require fun _ => only_bind (only_clock trivial) fun _ =>
        only_bind (only_mapError (only_linkStrength (hedge _ _ _ _ _ h) fun _ => hedge _ _ _ _ _ h)) fun _ => trivial
  · rename_i args hreq
    rw [hreq]
    refine only_bind only_require fun _ => ?_
    split
    · trivial
    · exact only_bind (only_clock trivial) fun _ => only_bind (only_storeEntries _) fun _ =>
          only_bind (only_linkAll (fun _ _ => hedge _ _ _ _ _ h) _) fun _ => trivial
  · rename_i args hreq
    rw [hreq]
    refine only_bind only_require fun _ => only_bind (only_embed.imp fun _ => Cmd.quiet.strengthens) fun vector => ?_
    refine only_bind (only_clock trivial) fun now => ?_
    refine only_bind (only_mapError (only_search.imp fun _ h => h.quiet.strengthens)) fun results => ?_
    refine only_bind (only_mapError (only_findBridges.imp fun _ h => h.quiet.strengthens)) fun bridges => ?_
    exact only_bind (only_whenever only_restoreCold) fun _ => only_bind (only_whenever only_strengthenResults) fun _ => trivial
  · exact h.elim

/-- Link, StoreBatch and Search requests at work on a reachable store: as long as every
create_or_strengthen of the edge writes over the weight it has read, the stored weight is the
initial one and all bumps landed so far, saturated at 1. -/
theorem weight_play {bm25 : Bm25 F} {w : World F} (h : Reachable bm25 anyCaller anyStep w) {ts : List (Caller F)}
    (hts : ∀ t ∈ ts, t.strengthens) (a b : String) {schedule : List ℕ}
    (hcur : (accepted w ts).Meets (exec bm25) (Current a b) schedule) :
    ((accepted w ts).play (exec bm25) schedule).state.db.weightOf a b =
      min 1 (w.db.weightOf a b + landed a b ((accepted w ts).play (exec bm25) schedule).log) := by
  let J : Requests F → Prop := fun p => p.Obeys (fun _ _ c => c.strengthens) ∧ p.state.db.Weighted ∧
    p.state.db.weightOf a b = min 1 (w.db.weightOf a b + landed a b p.log)
  have hJ : J ((accepted w ts).play (exec bm25) schedule) := by
    refine Pool.play_keeps (fun p i t c hp hn hg => ?_) hcur ⟨?_, h.weighted, ?_⟩
    · obtain ⟨hobeys, hweighted, hweight⟩ := hp
      obtain ⟨k, -, hturn⟩ := Pool.turn_some (x := exec bm25) hn
      have hc : c.strengthens := hobeys.allowed hn
      obtain ⟨hkeep, hstep⟩ := weight_exec bm25 i a b hweighted hc fun s d existing bump now kind heq => by
        subst heq
        exact hg
      have hbump : 0 ≤ landedBy a b ⟨i, c, (exec bm25 c p.state).1⟩ := landedBy_nonneg a b _ hc
      refine ⟨hobeys.turn i, ?_, ?_⟩ <;> rw [hturn]
      · exact hkeep
      · refine hstep.trans ?_
        rw [hweight, min_one_add hbump, add_assoc]
        simp only [landed, List.map_cons, List.sum_cons, add_comm]
    · refine accepted_obeys fun t ht => ?_
      exact (Only.issues (fun _ _ hc => hc) (only_strengthening (hts t ht)) []).imp fun _ _ _ => trivial
    · simp only [landed, accepted, Pool.start, List.map_nil, List.sum_nil, add_zero]
      exact (min_eq_right (h.weighted.weightOf a b).2).symm
  exact hJ.2.2

end

/-! ### Two Links of one edge -/

def teaAndMilk : World ℚ := (batch "alice" ["milk"]).serve Bm25.none ((batch "alice" ["tea"]).serve Bm25.none World.quiet)

theorem teaAndMilk_reachable : Reachable Bm25.none anyCaller anyStep teaAndMilk :=
  (quiet_start.reachable.serve trivial fun _ _ => trivial).serve trivial fun _ _ => trivial

def pour : Caller ℚ where
  app := .flat
  user := "alice"
  request := .memory (.link ⟨"alice", "mem_", "mem_a", 2 / 5, false, "explicit"⟩)

theorem pour_strengthens : ∀ t ∈ [pour, pour], t.strengthens := by
  have hpour : pour.strengthens := by
    change (0 : ℚ) ≤ 2 / 5
    norm_num
  simp [hpour]

/-- One after the other the bumps add up. -/
theorem weight_one_by_one :
    ((accepted teaAndMilk [pour, pour]).play (exec Bm25.none) [0, 0, 0, 1, 1, 1]).state.db.weightOf "mem_" "mem_a" =
      min 1 (teaAndMilk.db.weightOf "mem_" "mem_a" +
        landed "mem_" "mem_a" ((accepted teaAndMilk [pour, pour]).play (exec Bm25.none) [0, 0, 0, 1, 1, 1]).log) :=
  weight_play teaAndMilk_reachable pour_strengthens "mem_" "mem_a" (by decide +kernel)

/-- Both read that there is no edge, then both write 2/5. -/
theorem bump_lost : ¬ ∀ (w : World ℚ) (ts : List (Caller ℚ)) (a b : String) (schedule : List ℕ),
    Reachable Bm25.none anyCaller anyStep w → (∀ t ∈ ts, t.strengthens) →
    ((accepted w ts).play (exec Bm25.none) schedule).state.db.weightOf a b =
      min 1 (w.db.weightOf a b + landed a b ((accepted w ts).play (exec Bm25.none) schedule).log) := by
  intro h
  have hsum := h teaAndMilk [pour, pour] "mem_" "mem_a" [0, 1, 0, 1, 0, 1] teaAndMilk_reachable pour_strengthens
  have hlost : ((accepted teaAndMilk [pour, pour]).play (exec Bm25.none) [0, 1, 0, 1, 0, 1]).state.db.weightOf "mem_" "mem_a" ≠
      min 1 (teaAndMilk.db.weightOf "mem_" "mem_a" +
        landed "mem_" "mem_a" ((accepted teaAndMilk [pour, pour]).play (exec Bm25.none) [0, 1, 0, 1, 0, 1]).log) := by
    decide +kernel
  exact hlost hsum

end CognitiveMemory
