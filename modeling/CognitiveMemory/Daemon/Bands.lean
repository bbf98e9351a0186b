import CognitiveMemory.Daemon.Ingest
import CognitiveMemory.Search.Shape

/-! `queue_conflicts_for` as it computes: the similarity it compares with its thresholds is the rounded
ranking score, and its loop ends at the first hit that meets none of them. -/

namespace CognitiveMemory.Rounded
open Floating hiding max min
variable {F N : Type}

/-! ## The transaction -/

variable [Field F] [LinearOrder F]

section
variable (A : Floating F N)

def synapticTagWeight (sim : N) : N :=
  A.min (A.add (A.num (2 / 10)) (A.mul (A.sub sim (A.num (4 / 10))) (A.num (5 / 10)))) (A.num (5 / 10))

def queueConflicts (userId newId : String) (now : Int) : List (String × N) → Db F → Except SqlError (Db F)
  | [], db => .ok db
  | (hitId, sim) :: hits, db =>
    if hitId = newId then queueConflicts userId newId now hits db
    else if A.le (A.num (85 / 100)) sim then do
      let db ← db.queueConflict userId newId hitId (A.val sim) now
      queueConflicts userId newId now hits db
    else if A.le (A.num (75 / 100)) sim then
      queueConflicts userId newId now hits (db.modify (owned userId hitId) reinforced)
    else if A.le (A.num (4 / 10)) sim then do
      let db ← db.synapticTag newId hitId (A.val (synapticTagWeight A sim)) now
      let db ← db.synapticTag hitId newId (A.val (synapticTagWeight A sim)) now
      queueConflicts userId newId now hits db
    else .ok db

/-- The search, and one transaction over its hits. -/
def queueConflictsFor (sort : List (SearchResult N) → List (SearchResult N)) (bm25 : Bm25 F) (app : AppState F)
    (userId newId : String) (newVec : List F) (now : Int) (w : World F) : Except HandlerError Unit × World F :=
  match (search A sort app.lifecycle userId newVec (ingestOptions app now)).run (exec bm25) w with
  | (.error e, w) => (.error (.search e), w)
  | (.ok hits, w) =>
    if w.oracle.sqlFault 0 then (.error (.storage .io), w.answer w.db)
    else match queueConflicts A userId newId now (hits.map fun h => (h.memoryId, h.score)) w.db with
      | .ok db => (.ok (), w.answer db)
      | .error e => (.error (.storage e), w.answer w.db)

/-! ## Bands -/

def bandOf (sim : N) : Band :=
  if A.le (A.num (85 / 100)) sim then .conflict
  else if A.le (A.num (75 / 100)) sim then .reinforce
  else if A.le (A.num (4 / 10)) sim then .tag
  else .apart

def verdict (sim : N) : Verdict F := ⟨bandOf A sim, A.val sim, A.val (synapticTagWeight A sim)⟩

/-- The memory is treated by the band of its cosine. -/
def Follows (c : N) (m : MemoryRow F) (trace : Trace F) : Prop := A.IsNumber c ∧ trace = (verdict A c).leaves m

def Reached (newId : String) (hits : List (String × N)) (id : String) : Prop :=
  ∀ hit ∈ hits.takeWhile (·.1 != id), hit.1 ≠ newId → A.le (A.num (4 / 10)) hit.2

/-- Cosine and score are in one band, and give one weight if that is the band of tags; or all that would
be different is the reinforcement of a memory that is fully stable. -/
def SameBand (c s : N) (m : MemoryRow F) : Prop :=
  (bandOf A c = .conflict ∧ bandOf A s = .conflict) ∨
  (bandOf A c = .reinforce ∧ bandOf A s = .reinforce) ∨
  (bandOf A c = .tag ∧ bandOf A s = .tag ∧ A.val (synapticTagWeight A s) = A.val (synapticTagWeight A c)) ∨
  (bandOf A c = .apart ∧ bandOf A s = .apart) ∨
  (m.stability = 1 ∧ (bandOf A c = .reinforce ∧ bandOf A s = .apart ∨ bandOf A c = .apart ∧ bandOf A s = .reinforce))

/-- The cosine is a number; and the loop reaches the memory with a score of the same band, or does not
reach a memory that it would leave alone. -/
def KeepsBand (newId : String) (hits : List (String × N)) (c s : N) (m : MemoryRow F) : Prop :=
  A.IsNumber c ∧ (Reached A newId hits m.id ∧ SameBand A c s m ∨
    ¬ Reached A newId hits m.id ∧ (bandOf A c = .apart ∨ bandOf A c = .reinforce ∧ m.stability = 1))

end

variable {A : Floating F N}

theorem bandOf_eq_iff [IsStrictOrderedRing F] (hA : A.Lawful) {x : N} (hx : A.IsNumber x) :
    (bandOf A x = .conflict ↔ A.le (A.num (85 / 100)) x) ∧
    (bandOf A x = .reinforce ↔ A.le (A.num (75 / 100)) x ∧ A.lt x (A.num (85 / 100))) ∧
    (bandOf A x = .tag ↔ A.le (A.num (4 / 10)) x ∧ A.lt x (A.num (75 / 100))) ∧ (bandOf A x = .apart ↔ A.lt x (A.num (4 / 10))) := by
  have hlt : ∀ y : F, A.lt x (A.num y) = !A.le (A.num y) x := by
    intro y
    have hnot := hA.not_lt hx (hA.isNumber_num y)
    cases hle : A.le (A.num y) x with
    | true => exact hnot.mpr hle
    | false =>
      rw [Bool.not_false, ← Bool.not_eq_false]
      intro hlt
      rw [hnot.mp hlt] at hle
      cases hle
  have hdown : ∀ {y z : F}, y ≤ z → A.le (A.num z) x = true → A.le (A.num y) x = true := fun hyz hz =>
    hA.le_trans (hA.num_le hyz) hz
  have h₁ : (4 / 10 : F) ≤ 75 / 100 := by norm_num
  have h₂ : (75 / 100 : F) ≤ 85 / 100 := by norm_num
  unfold bandOf
  simp only [hlt]
  split_ifs with ha hb hc
  · simp [ha, hdown h₂ ha, hdown (h₁.trans h₂) ha]
  · simp [ha, hb, hdown h₁ hb]
  · simp [ha, hb, hc]
  · simp [ha, hb, hc]

section
variable {userId newId : String} {now : Int} {db db' : Db F} {m : MemoryRow F} {hits : List (String × N)}

theorem queueConflicts_cons (hit : String × N) (hits : List (String × N)) (db : Db F) :
    queueConflicts A userId newId now (hit :: hits) db =
      if hit.1 = newId then queueConflicts A userId newId now hits db
      else if bandOf A hit.2 = .apart then .ok db
      else db.settle userId newId now (hit.1, verdict A hit.2) >>= queueConflicts A userId newId now hits := by
  obtain ⟨hitId, sim⟩ := hit
  rw [queueConflicts]
  split
  · rfl
  by_cases h₁ : A.le (A.num (85 / 100)) sim = true
  · simp [Db.settle, verdict, bandOf, h₁]
  by_cases h₂ : A.le (A.num (75 / 100)) sim = true
  · simp only [Db.settle, verdict, bandOf, h₁, h₂]
    rfl
  by_cases h₃ : A.le (A.num (4 / 10)) sim = true
  · simp [Db.settle, verdict, bandOf, h₁, h₂, h₃]
  · simp [bandOf, h₁, h₂, h₃]

theorem apart_iff [IsStrictOrderedRing F] (hA : A.Lawful) {sim : N} :
    bandOf A sim = .apart ↔ ¬ A.le (A.num (4 / 10)) sim := by
  have hdown : ∀ {y z : F}, y ≤ z → A.le (A.num z) sim = true → A.le (A.num y) sim = true := fun hyz hz =>
    hA.le_trans (hA.num_le hyz) hz
  have h₁ : (4 / 10 : F) ≤ 75 / 100 := by norm_num
  have h₂ : (4 / 10 : F) ≤ 85 / 100 := by norm_num
  unfold bandOf
  split_ifs with ha hb hc
  · simp [hdown h₂ ha]
  · simp [hdown h₁ hb]
  · simp [hc]
  · simp [hc]

theorem trace_of_others (hids : ∀ hit ∈ hits, hit.1 ≠ m.id) (hnew : newId ≠ m.id)
    (h : queueConflicts A userId newId now hits db = .ok db') : db'.trace userId newId m.id = db.trace userId newId m.id := by
  induction hits generalizing db with
  | nil =>
    cases h
    rfl
  | cons hit hits ih =>
    obtain ⟨hid, hids⟩ := List.forall_mem_cons.mp hids
    rw [queueConflicts_cons] at h
    split at h
    · exact ih hids h
    split at h
    · cases h
      rfl
    · obtain ⟨d, hd, h⟩ := bind_ok h
      exact (ih hids h).trans (settle_other hid hnew hd)

variable [IsStrictOrderedRing F]

open Classical in
/-- Of a memory the new one has met for the first time, the loop leaves the trace of its score, if it comes to it. -/
theorem trace_queueConflicts (hA : A.Lawful) (hnodup : (hits.map Prod.fst).Nodup) {s : N} (hmem : (m.id, s) ∈ hits)
    (huser : m.userId = userId) (hnew : newId ≠ m.id) (hclean : db.trace userId newId m.id = ⟨false, some m, none, none⟩)
    (h : queueConflicts A userId newId now hits db = .ok db') : db'.trace userId newId m.id =
      if Reached A newId hits m.id then (verdict A s).leaves m else ⟨false, some m, none, none⟩ := by
  induction hits generalizing db with
  | nil => nomatch hmem
  | cons hit hits ih =>
    rw [List.map_cons, List.nodup_cons] at hnodup
    rw [queueConflicts_cons] at h
    rcases List.mem_cons.mp hmem with rfl | hmem'
    · -- the loop has come to it
      have hreached : Reached A newId ((m.id, s) :: hits) m.id := by
        unfold Reached
        rw [List.takeWhile_cons_of_neg (by simp)]
        exact nofun
      have hothers : ∀ hit ∈ hits, hit.1 ≠ m.id := fun hit hhit heq => hnodup.1 (List.mem_map.mpr ⟨hit, hhit, heq⟩)
      rw [if_pos hreached]
      rw [if_neg (Ne.symm hnew)] at h
      split at h
      · rename_i hapart
        cases h
        rw [hclean, verdict, Verdict.leaves, hapart]
      · obtain ⟨d, hd, h⟩ := bind_ok h
        exact (trace_of_others hothers hnew h).trans (settle_self huser hnew hclean hd)
    have hother : hit.1 ≠ m.id := fun heq => hnodup.1 (heq ▸ List.mem_map.mpr ⟨_, hmem', rfl⟩)
    have hstep : Reached A newId (hit :: hits) m.id ↔
        (hit.1 ≠ newId → A.le (A.num (4 / 10)) hit.2) ∧ Reached A newId hits m.id := by
      unfold Reached
      rw [List.takeWhile_cons_of_pos (by simpa using hother), List.forall_mem_cons]
    rw [hstep]
    split at h
    · rename_i hskip
      rw [ih hnodup.2 hmem' hclean h]
      simp [hskip]
    rename_i hne
    split at h
    · rename_i hapart
      cases h
      have hlow := (apart_iff hA).mp hapart
      rw [if_neg fun hreached => hlow (hreached.1 hne), hclean]
    · rename_i hband
      obtain ⟨d, hd, h⟩ := bind_ok h
      rw [ih hnodup.2 hmem' ((settle_other hother hnew hd).trans hclean) h]
      have hhigh : A.le (A.num (4 / 10)) hit.2 := by_contra fun hlow => hband ((apart_iff hA).mpr hlow)
      simp [hhigh]

theorem leaves_eq_iff {c s : N} : (verdict A s).leaves m = (verdict A c).leaves m ↔ SameBand A c s m := by
  unfold SameBand Verdict.leaves verdict
  dsimp only
  cases hc : bandOf A c <;> cases hs : bandOf A s <;> simp
  case reinforce.apart => exact eq_comm.trans reinforced_eq_iff
  case apart.reinforce => exact reinforced_eq_iff

theorem clean_eq_iff {c : N} : ⟨false, some m, none, none⟩ = (verdict A c).leaves m ↔
    bandOf A c = .apart ∨ bandOf A c = .reinforce ∧ m.stability = 1 := by
  unfold Verdict.leaves verdict
  dsimp only
  cases hc : bandOf A c <;> simp
  case reinforce => exact eq_comm.trans reinforced_eq_iff

end

/-! ## A new memory -/

section
variable {sort : List (SearchResult N) → List (SearchResult N)} {bm25 : Bm25 F} {app : AppState F} {user newId : String}
  {newVec : List F} {now : Int} {hits : List (SearchResult N)} {w w' : World F}

theorem queueConflictsFor_ok
    (hsearch : (search A sort app.lifecycle user newVec (ingestOptions app now)).run (exec bm25) w = (.ok hits, w.answer w.db))
    (hrun : queueConflictsFor A sort bm25 app user newId newVec now w = (.ok (), w')) :
    queueConflicts A user newId now (hits.map fun h => (h.memoryId, h.score)) w.db = .ok w'.db := by
  unfold queueConflictsFor at hrun
  rw [hsearch] at hrun
  dsimp only at hrun
  split at hrun
  · cases hrun
  cases hdb : queueConflicts A user newId now (hits.map fun h => (h.memoryId, h.score)) (w.answer w.db).db with
  | error e =>
    rw [hdb] at hrun
    cases hrun
  | ok db =>
    rw [hdb] at hrun
    cases hrun
    exact hdb

variable [IsStrictOrderedRing F]

/-- The search of an ingest returns the five first of what it scored, and writes nothing. -/
theorem search_ingest (hA : A.Lawful) (hs : A.SortsBy SearchResult.score sort)
    (hrun : ((search A sort app.lifecycle user newVec (ingestOptions app now)).run (exec bm25) w).1 = .ok hits) :
    hits = (sort (dense A app.lifecycle w.db user newVec (ingestOptions app now))).take 5 ∧
      (search A sort app.lifecycle user newVec (ingestOptions app now)).run (exec bm25) w = (.ok hits, w.answer w.db) := by
  have hplain : SearchOptions.plain (ingestOptions app now) = true := rfl
  have hlimit : (ingestOptions app now).limit ≠ 0 := by simp [ingestOptions]
  rw [search_eq hA hs hlimit, Prog.run_bind] at hrun ⊢
  cases hentries : (entries A sort app.lifecycle user newVec (ingestOptions app now)).run (exec bm25) w with
  | mk answer w₁ =>
    rw [hentries] at hrun
    cases answer with
    | error e => cases hrun
    | ok l =>
      have hl : ((entries A sort app.lifecycle user newVec (ingestOptions app now)).run (exec bm25) w).1 = .ok l := by
        rw [hentries]
      obtain ⟨hvec, hfault, hscored⟩ := run_entries_ok hl
      rw [run_entries hvec hfault hscored, hplain, if_pos rfl] at hentries
      cases hentries
      cases hrun
      exact ⟨rfl, rfl⟩

theorem follows_iff (hA : A.Lawful) (hs : A.SortsBy SearchResult.score sort) {db₀ : Db F} (hk : db₀.Keyed) (hj : db₀.Joined)
    (hq : db₀.QueueJoined) {row : MemoryRow F} (hinsert : db₀.insertMemory row = .ok w.db)
    (hsearch : ((search A sort app.lifecycle row.userId newVec (ingestOptions app now)).run (exec bm25) w).1 = .ok hits)
    (hrun : queueConflictsFor A sort bm25 app row.userId row.id newVec now w = (.ok (), w')) {m : MemoryRow F}
    (hm : m ∈ w.db.memories) (huser : m.userId = row.userId)
    (hh : directHit A app.lifecycle newVec now (SearchCandidate.ofRow m) ∈ hits) (hne : m.id ≠ row.id) {c s : N}
    (hcosine : cosineSimilarity A newVec (SearchCandidate.ofRow m).embedding = c)
    (hscore : A.single (A.mul c (weakening A app.lifecycle now (SearchCandidate.ofRow m))) = s) :
    Follows A c m (w'.db.trace row.userId row.id m.id) ↔
      KeepsBand A row.id (hits.map fun h => (h.memoryId, h.score)) c s m := by
  obtain ⟨rfl, hsearch⟩ := search_ingest hA hs hsearch
  have hwrite := queueConflictsFor_ok hsearch hrun
  have hperm := hs.perm (dense A app.lifecycle w.db row.userId newVec (ingestOptions app now))
  obtain ⟨hkeyed, hclean⟩ : w.db.Keyed ∧ w.db.trace row.userId row.id m.id = ⟨false, some m, none, none⟩ :=
    trace_of_insert hk hj hq hinsert hm
  have hnodup : ((((sort (dense A app.lifecycle w.db row.userId newVec (ingestOptions app now))).take 5).map fun h =>
      (h.memoryId, h.score)).map Prod.fst).Nodup := by
    rw [List.map_map]
    exact ((hperm.map SearchResult.memoryId).nodup_iff.mpr (dense_nodup hkeyed)).sublist ((List.take_sublist _ _).map _)
  have hpair : (m.id, s) ∈ ((sort (dense A app.lifecycle w.db row.userId newVec (ingestOptions app now))).take 5).map fun h =>
      (h.memoryId, h.score) := by
    subst hcosine hscore
    exact List.mem_map.mpr ⟨_, hh, rfl⟩
  rw [Follows, KeepsBand, trace_queueConflicts hA hnodup hpair huser (Ne.symm hne) hclean hwrite]
  refine and_congr_right fun _ => ?_
  split
  · rename_i hreached
    rw [leaves_eq_iff]
    exact ⟨fun h => .inl ⟨hreached, h⟩, fun h => h.elim And.right fun h => absurd hreached h.1⟩
  · rename_i hreached
    rw [clean_eq_iff]
    exact ⟨fun h => .inr ⟨hreached, h⟩, fun h => h.elim (fun h => absurd h.1 hreached) And.right⟩

/-- For every store, new memory and hit of its ingest search: the hit is treated by the band of its
cosine if and only if retention and rounding leave the band alone. -/
theorem bands_follow_iff (hA : A.Lawful) (hs : A.SortsBy SearchResult.score sort) {db₀ : Db F} (hk : db₀.Keyed)
    (hj : db₀.Joined) (hq : db₀.QueueJoined) {row : MemoryRow F} (hinsert : db₀.insertMemory row = .ok w.db)
    (hsearch : ((search A sort app.lifecycle row.userId newVec (ingestOptions app now)).run (exec bm25) w).1 = .ok hits)
    (hrun : queueConflictsFor A sort bm25 app row.userId row.id newVec now w = (.ok (), w')) {h : SearchResult N}
    (hh : h ∈ hits) (hne : h.memoryId ≠ row.id) : ∃ m ∈ w.db.memories, m.id = h.memoryId ∧
      let candidate := SearchCandidate.ofRow m
      let c := cosineSimilarity A newVec candidate.embedding
      let s := A.single (A.mul c (weakening A app.lifecycle now candidate))
      (Follows A c m (w'.db.trace row.userId row.id m.id) ↔
        KeepsBand A row.id (hits.map fun h => (h.memoryId, h.score)) c s m) := by
  have hscored : h ∈ dense A app.lifecycle w.db row.userId newVec (ingestOptions app now) := by
    obtain ⟨rfl, -⟩ := search_ingest hA hs hsearch
    exact (hs.perm _).mem_iff.mp (List.mem_of_mem_take hh)
  obtain ⟨candidate, hc, rfl⟩ := List.mem_map.mp hscored
  obtain ⟨m, hm, rfl⟩ := List.mem_map.mp hc
  obtain ⟨hmem, hsearchable⟩ := List.mem_filter.mp hm
  have huser : m.userId = row.userId := by
    simp only [MemoryRow.searchable, Bool.and_eq_true, beq_iff_eq] at hsearchable
    exact hsearchable.1.1.1.1.1.1
  exact ⟨m, hmem, rfl, follows_iff hA hs hk hj hq hinsert hsearch hrun hmem huser hh hne rfl rfl⟩

end

/-! ## Without rounding -/

section

variable [Elementary F]

theorem queueConflicts_exactly (userId newId : String) (now : Int) (hits : List (String × F)) (db : Db F) :
    queueConflicts (exactly F) userId newId now hits db = db.queueConflicts userId newId now hits := by
  induction hits generalizing db with
  | nil => rfl
  | cons hit hits ih =>
    obtain ⟨hitId, sim⟩ := hit
    have hle : ∀ x : F, (exactly F).le ((exactly F).num x) sim = true ↔ x ≤ sim := fun x => decide_eq_true_iff
    rw [queueConflicts, Db.queueConflicts]
    simp only [hle, ih]
    rfl

/-- On numbers, this is what the handlers of the rest of the model do. -/
theorem queueConflictsFor_exactly {sort : List (SearchResult F) → List (SearchResult F)}
    (hs : (exactly F).SortsBy SearchResult.score sort) (bm25 : Bm25 F) (app : AppState F) (userId newId : String) (newVec : List F)
    (now : Int) (w : World F) : queueConflictsFor (exactly F) sort bm25 app userId newId newVec now w =
      (CognitiveMemory.queueConflictsFor app userId newId newVec now).run (exec bm25) w := by
  unfold queueConflictsFor CognitiveMemory.queueConflictsFor sqlx
  rw [search_exactly hs, Prog.bind_eq, Prog.run_bind, Prog.run_mapError]
  cases (CognitiveMemory.search app.lifecycle userId newVec (ingestOptions app now)).run (exec bm25) w with
  | mk answer w₁ =>
    cases answer with
    | error e => rfl
    | ok hits =>
      let c : Write F := .queueConflicts userId newId (hits.map fun h => (h.memoryId, h.score)) now
      show _ = ((write c).mapError HandlerError.storage).run (exec bm25) w₁
      rw [Prog.run_mapError]
      dsimp only
      cases hfault : w₁.oracle.sqlFault 0 with
      | true =>
        rw [run_write_fault hfault]
        rfl
      | false =>
        rw [queueConflicts_exactly]
        cases hdb : w₁.db.queueConflicts userId newId now (hits.map fun h => (h.memoryId, h.score)) with
        | ok db =>
          have happly : c.apply w₁.db = .ok ((), db) := by
            simp only [c, Write.apply, hdb]
            rfl
          rw [run_write hfault happly]
          rfl
        | error e =>
          have happly : c.apply w₁.db = .error e := by
            simp only [c, Write.apply, hdb]
            rfl
          rw [run_write_rejected hfault happly]
          rfl

theorem sortDesc_sorts {α : Type} (key : α → F) : (exactly F).SortsBy key (sortDesc key) :=
  ⟨fun l => List.perm_insertionSort _ l, fun l _ => (insertionSort_exactly key l).symm⟩

end

/-! ### Tea, stored again after ten weeks -/

noncomputable def freshTea (id : String) (now : Int) : MemoryRow ℝ :=
  { MemoryRow.newMinimal id "alice" "tea" "semantic" "fact" now with
    embedding := some [1]
    embeddingProvider := some "flat"
    embeddingModel := some "flat-1" }

noncomputable def cellar : Db ℝ := { Db.empty with memories := [freshTea "mem_old" 0] }

noncomputable def cellarRestocked : Db ℝ :=
  { cellar with
    memories := [freshTea "mem_old" 0, freshTea "mem_new" 6220800]
    memoriesFts := [⟨"mem_new", "tea"⟩] }

noncomputable def teaApp : AppState ℝ := ⟨⟨"flat", "flat-1", fun _ => .ok [1]⟩, false, buildLifecycleConfig [], fun _ => []⟩

noncomputable def restocking : World ℝ := ⟨cellarRestocked, [], Oracle.quiet⟩

theorem insert_cellar : cellar.insertMemory (freshTea "mem_new" 6220800) = .ok restocking.db := by
  with_unfolding_all rfl

theorem cellar_sound : cellar.Keyed ∧ cellar.Joined ∧ cellar.QueueJoined := by
  exact ⟨List.nodup_singleton _, fun _ he => (nomatch he), fun _ hc => (nomatch hc)⟩

theorem weakening_old : weakening (exactly ℝ) teaApp.lifecycle 6220800 (SearchCandidate.ofRow (freshTea "mem_old" 0)) =
    (4 : ℝ) ^ (-(21 / 100) : ℝ) := by
  have hdays : (CognitiveMemory.daysSince 0 6220800 : ℝ) = 72 := by norm_num [CognitiveMemory.daysSince]
  have hrate : max (1 / 10 : ℝ) (1 / 100) * min (1 + 0 * 2) 3 * 240 = 24 := by norm_num
  show max ((1 + CognitiveMemory.daysSince 0 6220800 / (max (1 / 10 : ℝ) (1 / 100) * min (1 + 0 * 2) 3 * 240)) ^
    (-(7 / 10) : ℝ)) 0 ^ (3 / 10 : ℝ) = _
  have hbase : (1 : ℝ) + 72 / 24 = 4 := by norm_num
  rw [hdays, hrate, hbase, max_eq_left (Real.rpow_nonneg (by norm_num) _), ← Real.rpow_mul (by norm_num)]
  norm_num

theorem weakening_old_lt :
    weakening (exactly ℝ) teaApp.lifecycle 6220800 (SearchCandidate.ofRow (freshTea "mem_old" 0)) < 85 / 100 := by
  have hfifth : ((4 : ℝ) ^ (-(1 / 5) : ℝ)) ^ 5 = 1 / 4 := by
    rw [← Real.rpow_natCast, ← Real.rpow_mul (by norm_num)]
    norm_num [Real.rpow_neg_one]
  have hsmall : (4 : ℝ) ^ (-(1 / 5) : ℝ) < 85 / 100 := lt_of_pow_lt_pow_left₀ 5 (by norm_num) (by rw [hfifth]; norm_num)
  calc weakening (exactly ℝ) teaApp.lifecycle 6220800 (SearchCandidate.ofRow (freshTea "mem_old" 0))
      = (4 : ℝ) ^ (-(21 / 100) : ℝ) := weakening_old
    _ ≤ (4 : ℝ) ^ (-(1 / 5) : ℝ) := Real.rpow_le_rpow_of_exponent_le (by norm_num) (by norm_num)
    _ < 85 / 100 := hsmall

theorem cosine_tea : cosineSimilarity (exactly ℝ) [1] [1] = 1 := by
  rw [cosineSimilarity_exactly]
  simp [CognitiveMemory.cosineSimilarity, Elementary.sqrt]

noncomputable def teaHits : List (SearchResult ℝ) :=
  (cellarRestocked.denseHits teaApp.lifecycle "alice" [1] (ingestOptions teaApp 6220800)).take 5

theorem restocking_runs :
    ((search (exactly ℝ) (sortDesc SearchResult.score) teaApp.lifecycle "alice" [1] (ingestOptions teaApp 6220800)).run
      (exec fun _ _ _ => none) restocking).1 = .ok teaHits ∧
    ∃ w', queueConflictsFor (exactly ℝ) (sortDesc SearchResult.score) (fun _ _ _ => none) teaApp "alice" "mem_new" [1] 6220800
      restocking = (.ok (), w') := by
  have hs : (exactly ℝ).SortsBy SearchResult.score (sortDesc SearchResult.score) := sortDesc_sorts _
  rw [search_exactly hs, queueConflictsFor_exactly hs]
  refine exists_run_queueConflictsFor (w := restocking) (fun _ => rfl) (by with_unfolding_all rfl) (by simp) ?_
  rintro c ⟨hc, -⟩
  have hrows : c = freshTea "mem_old" 0 ∨ c = freshTea "mem_new" 6220800 := by
    simpa [restocking, cellarRestocked] using hc
  rcases hrows with rfl | rfl <;> rfl

noncomputable def staleTea : SearchResult ℝ :=
  (SearchCandidate.ofRow (freshTea "mem_old" 0)).result
    (compositeScore teaApp.lifecycle [1] 6220800 (SearchCandidate.ofRow (freshTea "mem_old" 0))) .direct

theorem staleTea_found : staleTea ∈ teaHits := by
  have hsearchable : (freshTea "mem_old" 0).searchable "alice" "flat" "flat-1" 6220800 false := by
    with_unfolding_all rfl
  have hfew : (cellarRestocked.denseHits teaApp.lifecycle "alice" [1] (ingestOptions teaApp 6220800)).length ≤ 5 := by
    rw [Db.denseHits, sortDesc, List.length_insertionSort, List.length_map, List.length_map]
    exact (List.length_filter_le _ _).trans (by simp [cellarRestocked])
  rw [teaHits, List.take_of_length_le hfew]
  exact denseHits_of_candidate ⟨List.mem_cons_self, hsearchable⟩

theorem bands_follow_restocking : ∃ w' : World ℝ, ∃ m ∈ cellarRestocked.memories, m.id = "mem_old" ∧
    let candidate := SearchCandidate.ofRow m
    let c := cosineSimilarity (exactly ℝ) [1] candidate.embedding
    let s := (exactly ℝ).single ((exactly ℝ).mul c (weakening (exactly ℝ) teaApp.lifecycle 6220800 candidate))
    (Follows (exactly ℝ) c m (w'.db.trace "alice" "mem_new" m.id) ↔
      KeepsBand (exactly ℝ) "mem_new" (teaHits.map fun h => (h.memoryId, h.score)) c s m) := by
  obtain ⟨hkeyed, hjoined, hqueue⟩ := cellar_sound
  obtain ⟨hsearch, w', hrun⟩ := restocking_runs
  have hnew : staleTea.memoryId ≠ "mem_new" := by
    simp [staleTea, SearchCandidate.result, SearchCandidate.ofRow, freshTea, MemoryRow.newMinimal]
  exact ⟨w', bands_follow_iff exactly_lawful (sortDesc_sorts _) hkeyed hjoined hqueue insert_cellar hsearch hrun
    staleTea_found hnew⟩

/-- The same vector, stored again after ten weeks, is not a conflict. -/
theorem old_tea_unqueued : ¬ ∀ (sort : List (SearchResult ℝ) → List (SearchResult ℝ)) (bm25 : Bm25 ℝ) (app : AppState ℝ)
    (db₀ : Db ℝ) (row m : MemoryRow ℝ) (w w' : World ℝ) (now : Int) (newVec : List ℝ) (hits : List (SearchResult ℝ))
    (h : SearchResult ℝ), (exactly ℝ).SortsBy SearchResult.score sort → db₀.Keyed → db₀.Joined → db₀.QueueJoined →
    db₀.insertMemory row = .ok w.db →
    ((search (exactly ℝ) sort app.lifecycle row.userId newVec (ingestOptions app now)).run (exec bm25) w).1 = .ok hits →
    queueConflictsFor (exactly ℝ) sort bm25 app row.userId row.id newVec now w = (.ok (), w') →
    h ∈ hits → h.memoryId ≠ row.id → m ∈ w.db.memories → m.id = h.memoryId →
      Follows (exactly ℝ) (cosineSimilarity (exactly ℝ) newVec (SearchCandidate.ofRow m).embedding) m
        (w'.db.trace row.userId row.id m.id) := by
  intro h
  obtain ⟨hkeyed, hjoined, hqueue⟩ := cellar_sound
  obtain ⟨hsearch, w', hrun⟩ := restocking_runs
  have hs : (exactly ℝ).SortsBy SearchResult.score (sortDesc SearchResult.score) := sortDesc_sorts _
  have hnew : ("mem_old" : String) ≠ "mem_new" := by decide
  have hfollows := h (sortDesc SearchResult.score) (fun _ _ _ => none) teaApp cellar (freshTea "mem_new" 6220800)
    (freshTea "mem_old" 0) restocking w' 6220800 [1] _ staleTea hs hkeyed hjoined hqueue insert_cellar hsearch hrun
    staleTea_found hnew List.mem_cons_self rfl
  have hold : freshTea "mem_old" 0 ∈ restocking.db.memories := List.mem_cons_self
  have hhit : directHit (exactly ℝ) teaApp.lifecycle [1] 6220800 (SearchCandidate.ofRow (freshTea "mem_old" 0)) ∈ teaHits := by
    rw [directHit_exactly]
    exact staleTea_found
  have hcosine : cosineSimilarity (exactly ℝ) [1] (SearchCandidate.ofRow (freshTea "mem_old" 0)).embedding = 1 := cosine_tea
  rw [hcosine] at hfollows
  have hkeeps := (follows_iff exactly_lawful hs hkeyed hjoined hqueue insert_cellar hsearch hrun hold rfl hhit hnew hcosine
    rfl).mp hfollows
  -- the cosine is in the conflict band, the score is not
  have hcband : bandOf (exactly ℝ) (1 : ℝ) = .conflict :=
    (bandOf_eq_iff exactly_lawful (decide_eq_true le_rfl)).1.mpr (decide_eq_true (by show (85 / 100 : ℝ) ≤ 1; norm_num))
  have hsband : bandOf (exactly ℝ) ((exactly ℝ).single ((exactly ℝ).mul 1 (weakening (exactly ℝ) teaApp.lifecycle 6220800
      (SearchCandidate.ofRow (freshTea "mem_old" 0))))) ≠ .conflict := by
    rw [Ne, (bandOf_eq_iff exactly_lawful (decide_eq_true le_rfl)).1]
    intro hle
    have hle : (85 / 100 : ℝ) ≤ 1 * weakening (exactly ℝ) teaApp.lifecycle 6220800 (SearchCandidate.ofRow (freshTea "mem_old" 0)) :=
      of_decide_eq_true hle
    linarith [weakening_old_lt]
  obtain ⟨-, ⟨-, hsame⟩ | ⟨-, hleft⟩⟩ := hkeeps
  · unfold SameBand at hsame
    rw [hcband] at hsame
    rcases hsame with h | h | h | h | h
    · exact hsband h.2
    · cases h.1
    · cases h.1
    · cases h.1
    · rcases h.2 with h | h <;> cases h.1
  · rw [hcband] at hleft
    rcases hleft with h | h
    · cases h
    · cases h.1

end CognitiveMemory.Rounded
