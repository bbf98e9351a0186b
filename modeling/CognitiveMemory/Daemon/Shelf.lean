import CognitiveMemory.Daemon.Passes
import CognitiveMemory.Daemon.Tiers

/-! How long a memory keeps its text: whatever is requested meanwhile, a Tick makes no stub of it before
it has been cold for 180 days. -/

namespace CognitiveMemory
open Prog
variable {F : Type}

def coldTtl : Int := 180 * 86400

/-! ## Where the times of a Tick come from -/

def Timely (h : Seen F) : Cmd F → Prop
  | .write (.tickFloor _ now) | .write (.supersedeCluster _ _ _ now) => Answered h .clock now
  | .write (.tickExpire rows) => ∃ now : Int, Answered h .clock now ∧ Answered h (.query (.staleCold (now - coldTtl))) (.ok rows)
  | _ => True

def Cmd.dated (now : Int) : Cmd F → Prop
  | .write (.tickFloor _ now') | .write (.supersedeCluster _ _ _ now') => now' = now
  | .write (.tickExpire _) => False
  | _ => True

theorem Cmd.dated.timely {now : Int} {h : Seen F} {c : Cmd F} (hc : c.dated now) (hclock : Answered h .clock now) :
    Timely h c := by
  cases c with
  | write w =>
    cases w with
    | tickFloor | supersedeCluster =>
      cases hc
      exact hclock
    | tickExpire => exact hc.elim
    | _ => trivial
  | _ => trivial

theorem Cmd.quiet.dated {c : Cmd F} (h : c.quiet) (now : Int) : c.dated now := by
  cases c with
  | write w =>
    cases w with
    | cacheInsert => trivial
    | _ => exact h.elim
  | _ => trivial

theorem issues_dated {ε α : Type} {now : Int} {p : Prog (Cmd F) Cmd.Res ε α} (hp : p.Only (Cmd.dated now)) {h : Seen F}
    (hclock : Answered h .clock now) : p.Issues Timely (fun _ h' => Answered h' .clock now) h :=
  hp.issues_within (I := fun h => Answered h .clock now) (fun _ _ hc hh => hc.timely hh) (fun _ _ _ _ hh => List.mem_cons_of_mem _ hh) hclock

variable [Field F] [LinearOrder F]

section
variable {app : AppState F}

theorem only_dated_compressCluster {user : String} {group : List (MemoryRow F)} {now : Int} :
    (compressCluster app user group now).Only (Cmd.dated now) := by
  refine only_bind ⟨trivial, fun _ => trivial⟩ fun answer => only_bind (only_mapError (only_ofExcept _)) fun text => ?_
  refine only_bind (only_embed.imp fun _ hc => hc.dated now) fun vector => ?_
  refine only_bind (only_freshMemoryId trivial) fun id => only_bind (only_mapError (only_write trivial)) fun _ => ?_
  exact only_bind (only_mapError (only_write rfl)) fun _ => trivial

variable [Elementary F]

theorem issues_timely_tick : (handleTick app).Issues Timely (fun _ _ => True) [] := by
  refine .seq (P := fun now h => Answered h .clock now) ⟨trivial, fun now => List.mem_cons_self⟩ fun now h₁ hclock₁ => ?_
  refine .seq (issues_dated (only_mapError (only_query trivial)) hclock₁) fun hot h₂ hclock₂ => ?_
  have hdated (rows : List (MemoryRow F × Bool)) : (Cmd.write (.tickFloor rows now)).dated now := rfl
  refine .seq (issues_dated (only_mapError (only_write (hdated _))) hclock₂) fun _ h₃ hclock₃ => ?_
  refine .seq (P := fun stale h => Answered h .clock now ∧ Answered h (.query (.staleCold (now - coldTtl))) (.ok stale))
    (.mapError ⟨trivial, fun answer => ?_⟩) fun stale h₄ ⟨hclock₄, hstale⟩ => ?_
  · cases answer with
    | error e => trivial
    | ok rows => exact ⟨List.mem_cons_of_mem _ hclock₃, List.mem_cons_self⟩
  refine .seq (P := fun _ h => Answered h .clock now) (.mapError ⟨⟨now, hclock₄, hstale⟩, fun answer => ?_⟩) fun _ h₅ hclock₅ => ?_
  · cases answer with
    | error e => trivial
    | ok _ => exact List.mem_cons_of_mem _ hclock₄
  refine .seq (issues_dated ?_ hclock₅) fun _ h₆ hclock₆ => .seq (issues_dated ?_ hclock₆) fun _ _ _ => trivial
  · refine only_bind (only_mapError (only_query trivial)) fun pairs => ?_
    split
    · trivial
    · exact only_mapError ⟨trivial, fun _ => only_ofExcept _⟩
  · refine closed_consolidateAtTick (only_closed (Cmd.dated now)) (fun c hc => ⟨?_, fun _ => trivial⟩) fun user group =>
      only_dated_compressCluster
    cases c with
    | order | query => trivial
    | _ => exact hc.elim

theorem issues_timely (t : Caller F) : (handleRequest t.app t.request t.user).Issues Timely (fun _ _ => True) [] := by
  by_cases htick : t.isTick
  · obtain ⟨app, user, req⟩ := t
    obtain ⟨sync, rfl⟩ := htick
    exact issues_timely_tick
  refine ((only_issued t.app t.request t.user).issues (fun h c hc => ?_) []).imp fun _ _ _ => trivial
  have hnone (w : Write F) (hw : t.request.writes w) : Timely h (.write w) := by
    cases hreq : t.request with
    | diagnostics req =>
      rw [hreq] at hw
      cases w <;> first | trivial | (cases req <;> exact hw.elim)
    | memory req =>
      rw [hreq] at hw
      cases w <;> first | trivial | (cases req <;> first | exact hw.elim | cases hw)
    | lifecycle req =>
      rw [hreq] at hw
      cases req with
      | tick sync => exact absurd ⟨sync, hreq⟩ htick
      | _ => cases w <;> trivial
    | unknownBucket =>
      rw [hreq] at hw
      exact hw.elim
  cases c with
  | write w => exact hnone w hc
  | _ => trivial

end

/-! ## The memory on its shelf -/

def MemoryRow.Shelved (t₀ : Int) (r : MemoryRow F) : Prop :=
  r.isStub = false ∧ ∀ since, r.isCold = true → r.coldSince = some since → t₀ ≤ since

/-- The memory of this id is shelved, and the clock goes from `t₀` to the end of its term. -/
structure World.Shelves (id : String) (t₀ : Int) (w : World F) : Prop where
  rows : ∀ r ∈ w.db.memories, r.id = id → r.Shelved t₀
  clock : ∀ n, t₀ ≤ w.oracle.clock n ∧ w.oracle.clock n ≤ t₀ + coldTtl

def InTerm (id : String) (t₀ : Int) : (c : Cmd F) × c.Res → Prop
  | ⟨.clock, now⟩ => t₀ ≤ now ∧ now ≤ t₀ + coldTtl
  | ⟨.query (.staleCold cutoff), .ok rows⟩ => cutoff ≤ t₀ → ∀ r ∈ rows, r.id ≠ id
  | _ => True

theorem inTerm_exec {bm25 : Bm25 F} {id : String} {t₀ : Int} (c : Cmd F) (w : World F) (h : w.Shelves id t₀) :
    InTerm id t₀ ⟨c, (exec bm25 c w).1⟩ := by
  cases c with
  | clock => exact h.clock 0
  | query q =>
    cases q with
    | staleCold cutoff =>
      simp only [exec]
      split
      · trivial
      · intro hcutoff r hr hid
        obtain ⟨hmem, hstale⟩ := List.mem_filter.mp hr
        simp only [Bool.and_eq_true, Bool.not_eq_true', Option.any_eq_true, decide_eq_true_eq] at hstale
        obtain ⟨⟨hcold, -⟩, since, hsince, hlt⟩ := hstale
        have hterm := (h.rows r hmem hid).2 since hcold hsince
        omega
    | _ => trivial
  | _ => trivial

theorem clock_exec (bm25 : Bm25 F) (c : Cmd F) (w : World F) (n : ℕ) :
    ∃ m, (exec bm25 c w).2.oracle.clock n = w.oracle.clock m := by
  cases c with
  | clock => exact ⟨n + 1, rfl⟩
  | write wr =>
    simp only [exec]
    split
    · exact ⟨n, rfl⟩
    · split <;> exact ⟨n, rfl⟩
  | resolveConflicts =>
    simp only [exec]
    split <;> exact ⟨n, rfl⟩
  | _ => exact ⟨n, rfl⟩

def Cmd.sparesText (id : String) (t₀ : Int) : Cmd F → Prop
  | .write (.insertMemory row) => row.isStub = false ∧ row.isCold = false
  | .write (.migrateToCold _ id' since) => id' = id → t₀ ≤ since
  | .write (.convertToStub _ id' _) => id' ≠ id
  | .write (.tickFloor _ now) | .write (.supersedeCluster _ _ _ now) => t₀ ≤ now
  | .write (.tickExpire rows) => ∀ r ∈ rows, r.id ≠ id
  | _ => True

omit [Field F] [LinearOrder F] in
theorem shelved_expire {id : String} {t₀ : Int} {rows : List (MemoryRow F)} (hrows : ∀ r ∈ rows, r.id ≠ id) {db : Db F}
    (h : ∀ r ∈ db.memories, r.id = id → r.Shelved t₀) : ∀ r ∈ (rows.foldl Db.tickExpireRow db).memories, r.id = id → r.Shelved t₀ := by
  induction rows generalizing db with
  | nil => exact h
  | cons row rows ih =>
    obtain ⟨hrow, hrest⟩ := List.forall_mem_cons.mp hrows
    refine ih hrest ?_
    unfold Db.tickExpireRow
    split
    · exact h
    · refine Db.forall_modify (fun r _ hsel _ hid => ?_) h
      exact absurd ((beq_iff_eq.mp hsel).symm.trans hid) hrow

theorem shelved_edit {id : String} {t₀ : Int} {wr : Write F} (hw : (Cmd.write wr).sparesText id t₀)
    {f : MemoryRow F → MemoryRow F}
    (hf : wr.edits f) (hstub : ∀ user id' text, wr ≠ .convertToStub user id' text) (hexpire : ∀ rows, wr ≠ .tickExpire rows)
    (hmigrate : ∀ user id' since, wr ≠ .migrateToCold user id' since) {r : MemoryRow F} (h : r.Shelved t₀) : (f r).Shelved t₀ := by
  have hdated {now : Int} (hnow : t₀ ≤ now) (since : Int) (hsince : some now = some since) : t₀ ≤ since := by
    cases hsince
    exact hnow
  cases wr with
  | applyDirectBoost | updateRetentionScores =>
    obtain ⟨x, -, rfl⟩ := hf
    exact h
  | tickFloor rows now =>
    rcases hf with rfl | rfl | rfl
    · exact h
    · exact h
    · exact ⟨h.1, fun since _ => hdated hw since⟩
  | supersedeCluster user target ids now =>
    subst hf
    exact ⟨h.1, fun since _ => hdated hw since⟩
  | migrateToHot | migrateToHotMany =>
    subst hf
    exact ⟨h.1, nofun⟩
  | updateMemory | promoteToCore | markSuperseded | queueConflicts =>
    subst hf
    exact h
  | convertToStub user id' text => exact absurd rfl (hstub user id' text)
  | tickExpire rows => exact absurd rfl (hexpire rows)
  | migrateToCold user id' since => exact absurd rfl (hmigrate user id' since)
  | _ => exact hf.elim

theorem shelved_write {id : String} {t₀ : Int} {wr : Write F} (hw : (Cmd.write wr).sparesText id t₀) {db db' : Db F}
    {a : wr.Res} (h : ∀ r ∈ db.memories, r.id = id → r.Shelved t₀) (happly : wr.apply db = .ok (a, db')) :
    ∀ r ∈ db'.memories, r.id = id → r.Shelved t₀ := by
  by_cases hselects : (∃ user id' text, wr = .convertToStub user id' text) ∨ (∃ rows, wr = .tickExpire rows) ∨
      ∃ user id' since, wr = .migrateToCold user id' since
  · -- statements that go by the id of what they change
    obtain ⟨user, id', text, rfl⟩ | ⟨rows, rfl⟩ | ⟨user, id', since, rfl⟩ := hselects
    · cases happly
      refine Db.forall_modify (fun r _ hsel _ hid => absurd ?_ hw) h
      simp only [owned, Bool.and_eq_true, beq_iff_eq] at hsel
      exact hsel.2.symm.trans hid
    · cases happly
      exact shelved_expire hw h
    · cases happly
      refine Db.forall_modify (fun r _ hsel hr hid => ⟨(hr hid).1, fun since' _ hsince => ?_⟩) h
      simp only [owned, Bool.and_eq_true, beq_iff_eq] at hsel
      cases hsince
      exact hw (hsel.2.symm.trans hid)
  · simp only [not_or, not_exists] at hselects
    obtain ⟨hstub, hexpire, hmigrate⟩ := hselects
    refine Write.forall_rows (P := fun r => r.id = id → r.Shelved t₀) ?_ ?_ ?_ h happly
    · rintro row rfl -
      exact ⟨hw.1, fun _ hcold => by rw [hw.2] at hcold; cases hcold⟩
    · exact fun _ _ _ _ _ _ _ hr => hr
    · intro _ f hf r hr hid
      exact shelved_edit hw hf hstub hexpire hmigrate (hr (edit_id hf r ▸ hid))

theorem shelves_exec {bm25 : Bm25 F} {id : String} {t₀ : Int} {c : Cmd F} {w : World F} (hc : c.sparesText id t₀)
    (h : w.Shelves id t₀) : (exec bm25 c w).2.Shelves id t₀ where
  rows := by
    refine exec_keeps (P := fun db => ∀ r ∈ db.memories, r.id = id → r.Shelved t₀) bm25 h.rows ?_ ?_
    · rintro wr a db rfl happly
      exact shelved_write hc h.rows happly
    · rintro llm pairs -
      exact resolving_forall_rows (P := fun r => r.id = id → r.Shelved t₀) (fun _ _ hr => hr) (fun _ _ hr => hr)
        (fun _ _ _ _ _ hr => hr) llm w.oracle.llm pairs h.rows
  clock n := by
    obtain ⟨m, hm⟩ := clock_exec bm25 c w n
    rw [hm]
    exact h.clock m

/-! ## Runs -/

/-- The request makes a stub of the memory, or has it cold since before `t₀`. -/
def Request.discards (id : String) (t₀ : Int) : Request F → Prop
  | .lifecycle (.convertToStub _ id' _) => id' = id
  | .lifecycle (.migrateToCold _ id' since) => id' = id ∧ since < t₀
  | _ => False

def Cmd.discards (id : String) (t₀ : Int) : Cmd F → Prop
  | .write (.convertToStub _ id' _) => id' = id
  | .write (.migrateToCold _ id' since) => id' = id ∧ since < t₀
  | _ => False

omit [LinearOrder F] in
theorem discards_of_issues {req : Request F} {id : String} {t₀ : Int} {c : Cmd F} (hissues : req.issues c)
    (h : c.discards id t₀) :
    req.discards id t₀ := by
  cases c with
  | write wr =>
    cases wr with
    | convertToStub | migrateToCold =>
      cases req with
      | diagnostics req => cases req <;> exact hissues.elim
      | memory req => cases req <;> first | exact hissues.elim | cases hissues
      | lifecycle req =>
        cases req with
        | tick | findFading | findStable => exact hissues.elim
        | _ =>
          cases hissues
          try exact h
      | unknownBucket => exact hissues.elim
    | _ => exact h.elim
  | _ => exact h.elim

theorem hot_of_derived {t : Caller F} {h : Seen F} {row : MemoryRow F} (hd : t.derives h (.write (.insertMemory row))) :
    row.isStub = false ∧ row.isCold = false := by
  obtain ⟨-, ⟨args, id, vector, now, rfl⟩ | ⟨user, rows, marked, group, id, text, vector, now, -, -, rfl⟩⟩ := hd
  · unfold storedRow
    dsimp only
    split <;> exact ⟨rfl, rfl⟩
  · exact ⟨rfl, rfl⟩

theorem sparesText_of {t : Caller F} {id : String} {t₀ : Int} (ht : ¬ t.request.discards id t₀) {h : Seen F} {c : Cmd F}
    (hd : t.derives h c) (htimely : Timely h c) (hissued : t.request.issues c) (hgood : ∀ e ∈ h, InTerm id t₀ e) :
    c.sparesText id t₀ := by
  cases c with
  | write wr =>
    cases wr with
    | insertMemory row => exact hot_of_derived hd
    | tickFloor rows now => exact (hgood _ htimely).1
    | supersedeCluster user target ids now => exact (hgood _ htimely).1
    | tickExpire rows =>
      obtain ⟨now, hclock, hstale⟩ := htimely
      have hnow : t₀ ≤ now ∧ now ≤ t₀ + coldTtl := hgood _ hclock
      have hrows : now - coldTtl ≤ t₀ → ∀ r ∈ rows, r.id ≠ id := hgood _ hstale
      exact hrows (by omega)
    | convertToStub user id' text => exact fun hid => ht (discards_of_issues hissued hid)
    | migrateToCold user id' since => exact fun hid => not_lt.mp fun hlt => ht (discards_of_issues hissued ⟨hid, hlt⟩)
    | _ => trivial
  | _ => trivial

/-- Within 180 days of having been seen hot a memory is made no stub of, whatever is requested and however
it interleaves, unless a request says so. -/
theorem shelved_for_its_term [Elementary F] (bm25 : Bm25 F) {w : World F} {id : String} {t₀ : Int}
    (h : w.Shelves id t₀) (ts : List (Caller F)) (hts : ∀ t ∈ ts, ¬ t.request.discards id t₀) (schedule : List ℕ) :
    ((accepted w ts).play (exec bm25) schedule).state.Shelves id t₀ := by
  let allows (t : Caller F) (h : Seen F) (c : Cmd F) : Prop :=
    (t.derives h c ∧ Timely h c) ∧ t.request.issues c ∧ ¬ t.request.discards id t₀
  have hobeys : (accepted w ts).Obeys allows := accepted_obeys fun t ht => by
    let spares (_ : Seen F) (c : Cmd F) : Prop := t.request.issues c ∧ ¬ t.request.discards id t₀
    have hissued := (only_issued t.app t.request t.user).issues (fun h c hc => show spares h c from ⟨hc, hts t ht⟩) []
    exact (((issues_derived t).and (issues_timely t)).and hissued).imp fun _ _ _ => trivial
  have hanswer : ∀ (c : Cmd F) (s : World F), s.Shelves id t₀ → InTerm id t₀ ⟨c, (exec bm25 c s).1⟩ := fun c s => inTerm_exec c s
  refine hobeys.play_keeps (J := fun w => w.Shelves id t₀) hanswer ?_ rfl h schedule
  rintro t seen c s ⟨⟨hd, htimely⟩, hissued, hspares⟩ hgood hs
  exact shelves_exec (sparesText_of hspares hd htimely hissued hgood) hs

def coldTea : MemoryRow ℚ := { MemoryRow.newMinimal "mem_tea" "alice" "tea" "semantic" "fact" 0 with isCold := true, coldSince := some 0 }

def coldShelf (now : Int) : World ℚ :=
  { World.quiet with db := { Db.empty with memories := [coldTea] }, oracle := { Oracle.quiet with clock := fun _ => now } }

def tidies : Caller ℚ := ⟨.flat, "alice", .lifecycle (.tick true)⟩

/-- On the last day of the term a Tick leaves the tea as it is. -/
theorem tea_on_the_shelf :
    ((accepted (coldShelf coldTtl) [tidies]).play (exec Bm25.none) [0, 0, 0, 0, 0, 0]).state.Shelves "mem_tea" 0 := by
  have hshelved : coldTea.Shelved 0 := by
    refine ⟨rfl, fun since _ hsince => ?_⟩
    cases hsince
    exact le_rfl
  refine shelved_for_its_term Bm25.none ⟨?_, fun n => ?_⟩ [tidies] (by simp [tidies, Request.discards]) _
  · rintro r hr -
    rw [List.mem_singleton.mp hr]
    exact hshelved
  · exact ⟨show 0 ≤ coldTtl by decide, show coldTtl ≤ 0 + coldTtl by decide⟩

-- a second later it does not
example : ((accepted (coldShelf (coldTtl + 1)) [tidies]).play (exec Bm25.none) [0, 0, 0, 0, 0, 0]).state.db.memories.map MemoryRow.isStub =
    [true] := by decide +kernel

end CognitiveMemory
