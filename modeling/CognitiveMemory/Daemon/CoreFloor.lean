import CognitiveMemory.Daemon.Writes

/-! The protected floor of core memories. Whoever makes a memory core sets its floor with the
category, except Update, which sets the category alone. -/

namespace CognitiveMemory
open Prog
variable {F : Type}

variable [Field F] [LinearOrder F]

def MemoryRow.Protected (r : MemoryRow F) : Prop := r.category = "core" → coreRetentionFloor ≤ r.retentionFloor

def Db.CoreProtected (db : Db F) : Prop := ∀ r ∈ db.memories, r.Protected

/-- The request carries retention floors of its own. -/
def Request.setsFloor : Request F → Prop
  | .memory (.update args) => args.retentionFloor.isSome
  | .memory (.batchUpdate ..) | .lifecycle (.updateRetention ..) => True
  | _ => False

instance (req : Request F) : Decidable req.setsFloor := by
  unfold Request.setsFloor
  split <;> infer_instance

/-- An update that makes memories core finds a protected floor in each of them. -/
def Floored (p : Requests F) (_ : ℕ) (_ : Caller F) (c : Cmd F) : Prop :=
  p.state.oracle.sqlFault 0 = false →
    match c with
    | .write (.updateMemory user id upd) => upd.category = some "core" →
        ∀ r ∈ p.state.db.memories, owned user id r → coreRetentionFloor ≤ r.retentionFloor
    | _ => True

instance (p : Requests F) (i : ℕ) (t : Caller F) (c : Cmd F) : Decidable (Floored p i t c) := by
  unfold Floored
  induction c using Cmd.casesOn with
  | write wr => induction wr using Write.casesOn <;> infer_instance
  | _ => infer_instance

/-! ## Rows -/

theorem protected_of_category {r : MemoryRow F} (h : r.category ≠ "core") : r.Protected := fun hcore => absurd hcore h

theorem embeddedRow_protected (app : AppState F) (id userId content category memoryType : String) (vector : List F)
    (now : Int) :
    (embeddedRow app id userId content category memoryType vector now).Protected := by
  intro hcore
  have hcategory : category = "core" := hcore
  show coreRetentionFloor ≤ if category = "core" then (coreRetentionFloor : F) else 0
  rw [if_pos hcategory]

theorem storedRow_protected {app : AppState F} {args : StoreMemoryArgs F} {id : String} {vector : List F} {now : Int} :
    (storedRow app args id vector now).Protected := by
  have h := embeddedRow_protected app id args.userId args.content args.category args.memoryType vector now
  unfold storedRow
  dsimp only
  split <;> exact h

theorem summaryRow_protected {app : AppState F} {id userId text : String} {vector : List F} {now : Int}
    {group : List (MemoryRow F)} : (summaryRow app id userId text vector now group).Protected :=
  embeddedRow_protected app id userId text ((group.head?.map MemoryRow.category).getD "") "summary" vector now

theorem protected_set {upd : MemoryUpdate F} (hfloor : upd.retentionFloor = none) {r : MemoryRow F} :
    (upd.set r).Protected ↔ (upd.category.getD r.category = "core" → coreRetentionFloor ≤ r.retentionFloor) := by
  unfold MemoryRow.Protected MemoryUpdate.set
  simp only [hfloor, Option.getD_none]

/-! ## Statements -/

def Cmd.sparesFloor : Cmd F → Prop
  | .write (.updateMemory _ _ upd) => upd.retentionFloor = none
  | .write (.updateRetentionScores ..) => False
  | _ => True

omit [LinearOrder F] in
theorem sparesFloor_of_issued {req : Request F} (h : ¬ req.setsFloor) {c : Cmd F} (hc : req.issues c) : c.sparesFloor := by
  cases c with
  | write w =>
    cases w with
    | updateMemory user id upd =>
      rcases writes_update hc with ⟨args, rfl, rfl⟩ | ⟨floor, rfl, rfl⟩
      · exact Option.not_isSome_iff_eq_none.mp h
      · exact absurd trivial h
    | updateRetentionScores user updates =>
      obtain rfl := writes_retentions hc
      exact h trivial
    | _ => trivial
  | _ => trivial

theorem protected_of_derived {t : Caller F} {h : Seen F} {row : MemoryRow F}
    (hd : t.derives h (.write (.insertMemory row))) :
    row.Protected := by
  obtain ⟨-, ⟨args, id, vector, now, rfl⟩ | ⟨user, rows, marked, group, id, text, vector, now, -, -, rfl⟩⟩ := hd
  · exact storedRow_protected
  · exact summaryRow_protected

/-- Assignments that leave the category and the floor alone, and the three that set both. -/
theorem protected_edit {w : Write F} (hupdate : ∀ user id upd, w ≠ .updateMemory user id upd)
    (hspares : (Cmd.write w).sparesFloor) {f : MemoryRow F → MemoryRow F} (hf : w.edits f) {r : MemoryRow F}
    (h : r.Protected) : (f r).Protected := by
  cases w with
  | updateMemory user id upd => exact absurd rfl (hupdate user id upd)
  | updateRetentionScores => exact hspares.elim
  | applyDirectBoost | tickExpire =>
    obtain ⟨x, -, rfl⟩ := hf
    exact h
  | promoteToCore =>
    subst hf
    exact fun _ => le_refl _
  | tickFloor => rcases hf with rfl | rfl | rfl <;> exact h
  | markSuperseded | migrateToCold | migrateToHot | migrateToHotMany | convertToStub | queueConflicts | supersedeCluster =>
    subst hf
    exact h
  | _ => exact hf.elim

/-! ## Runs -/

def Caller.derivesFloor (t : Caller F) (h : Seen F) (c : Cmd F) : Prop := t.derives h c ∧ c.sparesFloor

theorem coreProtected_turn {p : Requests F} (hobeys : p.Obeys Caller.derivesFloor) (h : p.state.db.CoreProtected)
    (bm25 : Bm25 F) {i : ℕ} {t : Caller F} {c : Cmd F} (hn : p.next? i = some (t, c)) (hg : Floored p i t c) :
    (p.turn (exec bm25) i).state.db.CoreProtected := by
  obtain ⟨k, -, hturn⟩ := Pool.turn_some (x := exec bm25) hn
  obtain ⟨hd, hspares⟩ : t.derivesFloor (Pool.seen p.log i) c := hobeys.allowed hn
  rw [hturn]
  show (exec bm25 c p.state).2.db.CoreProtected
  cases hfault : p.state.oracle.sqlFault 0 with
  | true =>
    rw [exec_fault bm25 hfault]
    exact h
  | false =>
    refine exec_keeps bm25 h ?_ fun llm pairs _ => ?_
    · rintro w a db rfl happly
      refine Write.forall_rows ?_ ?_ (fun hne f hf r => protected_edit hne hspares hf) h happly
      · rintro row rfl
        exact protected_of_derived hd
      · rintro user id upd rfl r hr ho hprotected
        rw [protected_set hspares]
        intro hcore
        cases hcategory : upd.category with
        | none => exact hprotected (by simpa [hcategory] using hcore)
        | some category =>
          obtain rfl : category = "core" := by simpa [hcategory] using hcore
          exact hg hfault hcategory r hr ho
    · refine resolving_forall_rows (fun r winner hr => hr) (fun r _ _ => protected_of_category ?_) (fun n e r _ _ hr => hr)
        llm _ pairs h
      show "semantic" ≠ "core"
      decide

/-- An update that makes memories core without a floor under them breaks the protection. -/
theorem floored_of_coreProtected {p : Requests F} (hobeys : p.Obeys Caller.derivesFloor) (bm25 : Bm25 F) {i : ℕ}
    {t : Caller F} {c : Cmd F} (hn : p.next? i = some (t, c)) (h : (p.turn (exec bm25) i).state.db.CoreProtected) :
    Floored p i t c := by
  obtain ⟨k, -, hturn⟩ := Pool.turn_some (x := exec bm25) hn
  obtain ⟨-, hspares⟩ : t.derivesFloor (Pool.seen p.log i) c := hobeys.allowed hn
  rw [hturn] at h
  intro hfault
  cases c with
  | write w =>
    cases w with
    | updateMemory user id upd =>
      intro hcategory r hr ho
      simp only [exec, hfault, Bool.false_eq_true, if_false, Write.apply, World.answer] at h
      have hset : (upd.set r).Protected := by
        refine h _ ?_
        rw [(updateMemory_tables p.state.db user id upd).1]
        exact List.mem_map.mpr ⟨r, hr, if_pos ho⟩
      rw [protected_set hspares, hcategory] at hset
      exact hset rfl
    | _ => trivial
  | _ => trivial

variable [Elementary F]

theorem derivesFloor_accepted (w : World F) {ts : List (Caller F)} (hts : ∀ t ∈ ts, ¬ t.request.setsFloor) :
    (accepted w ts).Obeys Caller.derivesFloor := by
  refine accepted_obeys fun t ht => ?_
  have hissues := (only_issued t.app t.request t.user).issues (fun (_ : History (Cmd F) Cmd.Res) _ hc => hc) []
  exact (((issues_derived t).and hissues).mono fun _ _ hc => ⟨hc.1, sparesFloor_of_issued (hts t ht) hc.2⟩).imp
    fun _ _ _ => trivial

/-- Requests that carry no floor of their own: every core memory has the protected floor in all
states of a run if and only if every update that makes memories core finds it there. -/
theorem coreProtected_iff_floored {bm25 : Bm25 F} {w : World F} (h : w.Start) {ts : List (Caller F)}
    (hts : ∀ t ∈ ts, ¬ t.request.setsFloor) {schedule : List ℕ} :
    (∀ is js, schedule = is ++ js → ((accepted w ts).play (exec bm25) is).state.db.CoreProtected) ↔
      (accepted w ts).Meets (exec bm25) Floored schedule := by
  have hobeys := derivesFloor_accepted w hts
  constructor
  · exact Pool.meets_of_prefixes (J := fun p => p.Obeys Caller.derivesFloor) (P := fun w' => w'.db.CoreProtected)
      (fun p i t c hp _ => hp.turn i) (fun p i t c hp hn _ hafter => floored_of_coreProtected hp bm25 hn hafter) hobeys
  · intro hmeets is js heq
    let J : Requests F → Prop := fun p => p.Obeys Caller.derivesFloor ∧ p.state.db.CoreProtected
    have hJ : J ((accepted w ts).play (exec bm25) is) := by
      refine Pool.play_prefixes (fun p i t c hp hn hg => ?_) hmeets ⟨hobeys, ?_⟩ heq
      · exact ⟨hp.1.turn i, coreProtected_turn hp.1 hp.2 bm25 hn hg⟩
      · show w.db.CoreProtected
        rw [h.db]
        exact fun r hr => nomatch hr
    exact hJ.2

/-! ### An Update of the category -/

def relabel (category : String) : Caller ℚ :=
  ⟨.flat, "alice", .memory (.update { userId := "alice", id := "mem_", category := some category })⟩

theorem relabeling_sets_no_floor (category : String) : ∀ t ∈ [batch "alice" ["tea"], relabel category],
    ¬ t.request.setsFloor := by
  simp [batch, relabel, Request.setsFloor]

theorem coreProtected_after_relabeling :
    ((accepted World.quiet [batch "alice" ["tea"], relabel "procedural"]).play (exec Bm25.none)
    (List.replicate 6 0 ++ [1])).state.db.CoreProtected :=
  (coreProtected_iff_floored quiet_start (relabeling_sets_no_floor _)).mpr (by decide +kernel) _ [] (List.append_nil _).symm

/-- A memory made core by Update keeps the floor it had. -/
theorem core_without_floor : ¬ ∀ (w : World ℚ) (ts : List (Caller ℚ)) (schedule : List ℕ), w.Start →
    (∀ t ∈ ts, ¬ t.request.setsFloor) → ((accepted w ts).play (exec Bm25.none) schedule).state.db.CoreProtected := by
  intro h
  have hall := h World.quiet [batch "alice" ["tea"], relabel "core"] (List.replicate 6 0 ++ [1]) quiet_start
      (relabeling_sets_no_floor _)
  have hrow : ∃ r ∈ ((accepted World.quiet [batch "alice" ["tea"], relabel "core"]).play (exec Bm25.none)
      (List.replicate 6 0 ++ [1])).state.db.memories, r.category = "core" ∧ ¬ (6 / 10 : ℚ) ≤ r.retentionFloor := by
    decide +kernel
  obtain ⟨r, hr, hcore, hbelow⟩ := hrow
  exact hbelow (hall r hr hcore)

end CognitiveMemory
