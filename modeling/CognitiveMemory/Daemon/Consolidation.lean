import CognitiveMemory.Daemon.Supersession

/-! Consolidation by concurrent Ticks. A cluster is marked after its summary is stored, and no
memory gets into two clusters as long as Ticks do not overlap on it. -/

namespace CognitiveMemory
open Prog Forwarding
variable {F : Type}

/-! ## What a Tick issues -/

def Cmd.passes : Cmd F → Prop
  | .write (.cacheInsert _) | .write (.tickFloor ..) | .write (.tickExpire _) | .write (.supersedeCluster ..) => True
  | .write _ => False
  | _ => True

theorem Cmd.quiet.passes {c : Cmd F} (h : c.quiet) : c.passes := by
  cases c with
  | write w =>
    cases w with
    | cacheInsert => trivial
    | _ => exact h.elim
  | _ => trivial

def Marks (h : Seen F) (c : Cmd F) : Prop :=
  (c.passes ∨ ∃ row, c = .write (.insertMemory row)) ∧ ∀ row rest, h = ⟨.write (.insertMemory row), .ok ()⟩ :: rest →
    ∃ ids now, c = .write (.supersedeCluster row.userId row.id ids now)

def Settled (h : Seen F) : Prop := ∀ row rest, h ≠ ⟨.write (.insertMemory row), .ok ()⟩ :: rest

theorem Settled.cons {h : Seen F} {c : Cmd F} (hc : c.passes) (r : c.Res) : Settled (⟨c, r⟩ :: h) := by
  intro row rest heq
  cases heq
  exact hc

theorem Settled.marks {h : Seen F} (hh : Settled h) {c : Cmd F} (hc : c.passes) : Marks h c :=
  ⟨.inl hc, fun row rest heq => absurd heq (hh row rest)⟩

theorem issues_passes {ε α : Type} {p : Prog (Cmd F) Cmd.Res ε α} (hp : p.Only Cmd.passes) {h : Seen F} (hh : Settled h) :
    p.Issues Marks (fun _ h' => Settled h') h :=
  hp.issues_within (fun _ _ hc hh => hh.marks hc) (fun _ _ r hc _ => .cons hc r) hh

theorem only_passing_call {ε : Type} {c : Cmd F} (hc : c.passes) :
    (Prog.call c : Prog (Cmd F) Cmd.Res ε _).Only Cmd.passes :=
  ⟨hc, fun _ => trivial⟩

theorem only_passing_query {q : Query F} : (query q).Only Cmd.passes := ⟨trivial, fun _ => only_ofExcept _⟩

theorem only_passing_write {w : Write F} (hw : (Cmd.write w).passes) : (write w).Only Cmd.passes :=
  ⟨hw, fun _ => only_ofExcept _⟩

variable [Field F] [LinearOrder F]

section
variable {app : AppState F} {user : String} {now : Int} {h : Seen F}

theorem marks_compressCluster {group : List (MemoryRow F)} (hh : Settled h) :
    (compressCluster app user group now).Issues Marks (fun _ h' => Settled h') h := by
  refine .seq (issues_passes (only_passing_call (c := .llm _ _) trivial) hh) fun answer h₁ hh₁ => ?_
  refine .seq (issues_passes (only_mapError (only_ofExcept _)) hh₁) fun text h₂ hh₂ => ?_
  refine .seq (issues_passes (only_embed.imp fun _ => Cmd.quiet.passes) hh₂) fun vector h₃ hh₃ => ?_
  refine .seq (issues_passes (only_freshMemoryId trivial) hh₃) fun id h₄ hh₄ => ?_
  let row := summaryRow app id user text vector now group
  have hstore : (sqlx (write (.insertMemory row))).Issues Marks
      (fun _ h' => h' = ⟨.write (.insertMemory row), .ok ()⟩ :: h₄) h₄ := by
    refine .mapError ⟨⟨.inr ⟨row, rfl⟩, fun row rest heq => absurd heq (hh₄ row rest)⟩, fun answer => ?_⟩
    cases answer with
    | error e => trivial
    | ok a => rfl
  refine .seq hstore fun _ h₅ h₅eq => ?_
  subst h₅eq
  have hmark : (sqlx (write (.supersedeCluster user id (group.map MemoryRow.id) now))).Issues Marks (fun _ h' => Settled h')
      (⟨.write (.insertMemory row), .ok ()⟩ :: h₄) := by
    refine .mapError ⟨⟨.inl trivial, fun row' rest heq => ?_⟩, fun answer => ?_⟩
    · cases heq
      exact ⟨_, _, rfl⟩
    · cases answer with
      | error e => trivial
      | ok a => exact Settled.cons (c := .write (.supersedeCluster user id (group.map MemoryRow.id) now)) trivial _
  exact .seq hmark fun _ _ hh₆ => hh₆

variable [Elementary F]

theorem marks_consolidateCategory (mems : List (MemoryRow F)) {used : List String} {created : ℕ} (hh : Settled h) :
    (consolidateCategory app user now mems used created).Issues Marks (fun _ h' => Settled h') h := by
  induction mems generalizing used created h with
  | nil => exact hh
  | cons head rest ih =>
    rw [consolidateCategory]
    split
    · exact hh
    · split
      · exact ih hh
      · dsimp only
        split
        · exact .seq (marks_compressCluster hh) fun _ _ hh₁ => ih hh₁
        · exact ih hh

theorem marks_consolidateCategories (fading : List (MemoryRow F)) (categories : List String) {created : ℕ} (hh : Settled h) :
    (consolidateCategories app user now fading categories created).Issues Marks (fun _ h' => Settled h') h := by
  induction categories generalizing created h with
  | nil => exact hh
  | cons category categories ih =>
    refine .seq (P := fun _ h' => Settled h') ?_ fun _ _ hh₁ => ih hh₁
    unfold consolidateMembers
    split
    · exact hh
    · exact marks_consolidateCategory _ hh

theorem marks_consolidateUsers (users : List String) {created : ℕ} (hh : Settled h) :
    (consolidateUsers app now users created).Issues Marks (fun _ h' => Settled h') h := by
  induction users generalizing created h with
  | nil => exact hh
  | cons user users ih =>
    rw [consolidateUsers]
    split
    · exact hh
    · refine .seq (issues_passes (only_mapError only_passing_query) hh) fun rows h₁ hh₁ => ?_
      refine .seq (issues_passes (only_passing_call (c := .order _) trivial) hh₁) fun categories h₂ hh₂ => ?_
      exact .seq (marks_consolidateCategories _ _ hh₂) fun _ _ hh₃ => ih hh₃

theorem marks_tick : (handleTick app).Issues Marks (fun _ _ => True) [] := by
  have hread : ∀ {q : Query F} {h : Seen F}, Settled h → (sqlx (query q)).Issues Marks (fun _ h' => Settled h') h :=
    fun hh => issues_passes (only_mapError only_passing_query) hh
  have hwrite : ∀ {w : Write F} {h : Seen F}, (Cmd.write w).passes → Settled h →
      (sqlx (write w)).Issues Marks (fun _ h' => Settled h') h :=
    fun hw hh => issues_passes (only_mapError (only_passing_write hw)) hh
  have hresolve : (resolveConflicts app).Only Cmd.passes := by
    refine only_bind (only_mapError only_passing_query) fun pairs => ?_
    split
    · trivial
    · have hcmd : (Prog.cmd (.resolveConflicts app.llm pairs) Prog.ofExcept : Repo F ℕ).Only Cmd.passes :=
        ⟨trivial, fun _ => only_ofExcept _⟩
      exact only_mapError hcmd
  have hstart : Settled ([] : Seen F) := fun row rest heq => nomatch heq
  refine .seq (issues_passes (only_passing_call (c := .clock) trivial) hstart) fun now h₁ hh₁ =>
      .seq (hread hh₁) fun hot h₂ hh₂ => ?_
  refine .seq (hwrite trivial hh₂) fun _ h₃ hh₃ => .seq (hread hh₃) fun stale h₄ hh₄ => ?_
  refine .seq (hwrite trivial hh₄) fun _ h₅ hh₅ => .seq (issues_passes hresolve hh₅) fun _ h₆ hh₆ => ?_
  refine .seq (P := fun _ _ => True) ?_ fun _ _ _ => trivial
  unfold consolidateAtTick
  split
  · trivial
  · exact .seq (hread hh₆) fun users h₇ hh₇ => (marks_consolidateUsers users hh₇).imp fun _ _ _ => trivial

end

/-! ## Clusters -/

structure Cluster where
  user : String
  summaryId : String
  ids : List String

def clusterOf : Event (Cmd F) Cmd.Res → Option Cluster
  | ⟨_, .write (.supersedeCluster user summaryId ids _), _⟩ => some ⟨user, summaryId, ids⟩
  | _ => none

def clusters (log : List (Event (Cmd F) Cmd.Res)) : List Cluster := log.filterMap clusterOf

def Summarizes [Elementary F] (row : MemoryRow F) (ids : List String) : Prop :=
  ∃ (app : AppState F) (text : String) (vector : List F) (now : Int) (group : List (MemoryRow F)),
    row = summaryRow app row.id row.userId text vector now group ∧ ids = group.map MemoryRow.id

/-- Every memory is in one cluster at most, and every summary's memories are superseded by it. -/
structure ConsolidatedOnce [Elementary F] (p : Requests F) : Prop where
  once : (clusters p.log).Pairwise fun c c' => c.ids.Disjoint c'.ids
  marked : ∀ i row, (⟨i, .write (.insertMemory row), .ok ()⟩ : Event (Cmd F) Cmd.Res) ∈ p.log →
    ∃ c ∈ clusters p.log, c.user = row.userId ∧ c.summaryId = row.id ∧ Summarizes row c.ids ∧
      ∀ id ∈ c.ids, ∃ r ∈ p.state.db.memories, r.id = id ∧ r.userId = c.user ∧ r.isSuperseded = true ∧
        r.supersededBy = some c.summaryId

def readsUser (i : ℕ) (user : String) (e : Event (Cmd F) Cmd.Res) : Bool :=
  e.task == i && match e.command with
    | .query (.hotEmbedded u) => u == user
    | _ => false

/-- The marking to come does not fail, and none of its memories was marked by another task since
this task read them. -/
def Undivided (p : Requests F) (i : ℕ) (_ : Caller F) : Cmd F → Prop
  | .write (.supersedeCluster user _ ids _) => p.state.oracle.sqlFault 0 = false ∧
      ∀ e ∈ p.log.takeWhile fun e => !readsUser i user e, e.task ≠ i → ∀ c ∈ clusterOf e, ∀ id ∈ ids, id ∉ c.ids
  | _ => True

instance (p : Requests F) (i : ℕ) (t : Caller F) (c : Cmd F) : Decidable (Undivided p i t c) := by
  unfold Undivided
  induction c using Cmd.casesOn with
  | write wr => induction wr using Write.casesOn <;> infer_instance
  | _ => infer_instance

def storedLast (log : List (Event (Cmd F) Cmd.Res)) (i : ℕ) : Bool :=
  match Pool.seen log i with
  | ⟨.write (.insertMemory _), .ok _⟩ :: _ => true
  | _ => false

/-! ## Statements of a Tick on the table of memories -/

theorem passes_extends (bm25 : Bm25 F) {w : World F} {c : Cmd F} (hk : w.db.Keyed)
    (hc : c.passes ∨ ∃ row, c = .write (.insertMemory row)) (hlive : ∀ row, c = .write (.insertMemory row) →
      row.isSuperseded = false)
    (hpairs : ∀ llm pairs, c = .resolveConflicts llm pairs → ∀ pair ∈ pairs, pair.newMemoryId ≠ pair.existingMemoryId)
    (hmark : ∀ user summaryId ids now, c ≠ .write (.supersedeCluster user summaryId ids now)) :
    (exec bm25 c w).2.db.standings.Extends w.db.standings := by
  refine exec_keeps (P := fun db => db.standings.Extends w.db.standings) bm25 (.refl _) ?_ ?_
  · rintro wr a db rfl happly
    cases wr with
    | insertMemory row =>
      obtain ⟨d, hd, hp⟩ := map_ok happly
      cases hp
      obtain ⟨hnew, hins⟩ := standings_insert hd (hlive row rfl)
      rw [hins]
      exact Table.extends_insert hnew
    | supersedeCluster user summaryId ids now => exact absurd rfl (hmark user summaryId ids now)
    | cacheInsert | tickFloor | tickExpire =>
      rw [standings_same (Write.entries_same id id happly)]
      exact .refl _
    | _ =>
      rcases hc with hc | ⟨row, hc⟩
      · exact hc.elim
      · cases hc
  · rintro llm pairs rfl
    exact (resolving_merged llm w.oracle.llm (hpairs llm pairs rfl) ⟨w.db, 0, 0⟩ hk).extends

theorem exec_supersedeCluster (bm25 : Bm25 F) {w : World F} (user summaryId : String) (ids : List String) (now : Int)
    (hfault : w.oracle.sqlFault 0 = false) :
    (exec bm25 (.write (.supersedeCluster user summaryId ids now)) w).1 = .ok () ∧
      (exec bm25 (.write (.supersedeCluster user summaryId ids now)) w).2.db.standings =
        w.db.standings.redirect (fun id owner => owner == user && ids.contains id) summaryId := by
  constructor
  · simp only [exec, hfault, Bool.false_eq_true, if_false, Write.apply]
  · simp only [exec, hfault, Bool.false_eq_true, if_false, Write.apply, World.answer]
    exact standings_marked fun _ => rfl

/-! ## Runs -/

omit [Field F] [LinearOrder F] in
theorem clusterOf_some {e : Event (Cmd F) Cmd.Res} {c : Cluster} (h : clusterOf e = some c) :
    ∃ now, e.command = .write (.supersedeCluster c.user c.summaryId c.ids now) := by
  unfold clusterOf at h
  split at h
  · cases h
    exact ⟨_, rfl⟩
  · cases h

def Caller.consolidates (t : Caller F) (h : Seen F) (c : Cmd F) : Prop := t.derives h c ∧ Marks h c

section

variable [Elementary F]

structure Consolidating (p : Requests F) : Prop where
  obeys : p.Obeys Caller.consolidates
  grounded : Grounded p
  queue : QueueRead p
  apart : (clusters p.log).Pairwise fun c c' => c.ids.Disjoint c'.ids
  kept : ∀ c ∈ clusters p.log, ∀ id ∈ c.ids, p.state.db.standings id = some (c.user, .moved (some c.summaryId))
  reads : ∀ newer older j user rows, p.log = newer ++ ⟨j, .query (.hotEmbedded user), .ok rows⟩ :: older →
    ∀ r ∈ rows, (∃ s, p.state.db.standings r.id = some (user, s)) ∧ ∀ c ∈ clusters older, r.id ∉ c.ids
  paid : ∀ newer older i row, p.log = newer ++ ⟨i, .write (.insertMemory row), .ok ()⟩ :: older → (∃ e ∈ newer, e.task = i) →
    ∃ c ∈ clusters newer, c.user = row.userId ∧ c.summaryId = row.id ∧ Summarizes row c.ids

namespace Consolidating
variable {p : Requests F} {i : ℕ} {t : Caller F}

/-- The memories of a new cluster are in none of the earlier ones: not in those marked before
they were read, nor in those this task or another marked since. -/
theorem disjoint (h : Consolidating p) {user summaryId : String} {ids : List String} {now : Int}
    (hd : t.derives (Pool.seen p.log i) (.write (.supersedeCluster user summaryId ids now)))
    (hg : Undivided p i t (.write (.supersedeCluster user summaryId ids now))) : ∀ c ∈ clusters p.log, ids.Disjoint c.ids := by
  obtain ⟨rows, marked, group, text, vector, rest, hseen, ⟨newer, older, rfl, hnewer⟩, hsub, rfl, hapart⟩ := hd
  obtain ⟨-, hfree⟩ := hapart (h.grounded.genuine.sublist (seen_sublist p.log i))
  rw [← List.cons_append] at hseen
  obtain ⟨before, after, hlog, hbefore, -⟩ := Pool.seen_split hseen
  intro c hc id hid hid'
  obtain ⟨m, hm, rfl⟩ := List.mem_map.mp hid
  obtain ⟨e, he, hce⟩ := List.mem_filterMap.mp hc
  obtain ⟨now', hcmd⟩ := clusterOf_some hce
  -- since its read, the task itself only marked clusters and stored the summary
  have hown : ∀ e ∈ before, e.task = i → (⟨e.command, e.answer⟩ : (c : Cmd F) × c.Res) ∈ newer ∨
      ∃ row, e.command = .write (.insertMemory row) := by
    rintro e he rfl
    have hmem := Pool.mem_seen he
    rw [hbefore] at hmem
    rcases List.mem_cons.mp hmem with heq | hmem
    · exact .inr ⟨_, congrArg Sigma.fst heq⟩
    · exact .inl hmem
  rw [hlog] at he
  rcases List.mem_append.mp he with he | he
  · by_cases htask : e.task = i
    · rcases hown e he htask with hmem | ⟨row, hrow⟩
      · obtain ⟨-, hmarked⟩ := (hnewer _ hmem).2 _ _ _ _ hcmd
        exact hfree m.id (List.mem_map_of_mem hm) (hmarked hid')
      · rw [hcmd] at hrow
        cases hrow
    · refine hg.2 e ?_ htask c hce m.id (List.mem_map_of_mem hm) hid'
      rw [hlog, List.takeWhile_append_of_pos]
      · exact List.mem_append_left _ he
      · intro e he
        unfold readsUser
        -- marked by this task since the read, by another since, or by anyone before
        by_cases htask : e.task = i
        · rcases hown e he htask with hmem | ⟨row, hrow⟩
          · have hno := (hnewer _ hmem).1
            split
            · exact absurd ‹e.command = _› (hno _)
            · simp
          · simp [hrow]
        · simp [htask]
  · rcases List.mem_cons.mp he with rfl | he
    · cases hcmd
    · exact (h.reads before after i user rows hlog m (hsub.subset hm)).2 c (List.mem_filterMap.mpr ⟨e, he, hce⟩) hid'

theorem paid_cons (h : Consolidating p) {c : Cmd F} (r : c.Res) (hc : t.consolidates (Pool.seen p.log i) c)
    {newer older : List (Event (Cmd F) Cmd.Res)} {j : ℕ} {row : MemoryRow F}
    (heq : ⟨i, c, r⟩ :: p.log = newer ++ ⟨j, .write (.insertMemory row), .ok ()⟩ :: older) (hlater : ∃ e ∈ newer, e.task = j) :
    ∃ c ∈ clusters newer, c.user = row.userId ∧ c.summaryId = row.id ∧ Summarizes row c.ids := by
  cases newer with
  | nil =>
    obtain ⟨e, he, -⟩ := hlater
    cases he
  | cons e newer =>
    obtain ⟨rfl, hlog⟩ := List.cons.inj heq
    change p.log = newer ++ _ at hlog
    by_cases hold : ∃ e ∈ newer, e.task = j
    · obtain ⟨c', hc', hrest⟩ := h.paid newer older j row hlog hold
      obtain ⟨e, he, hce⟩ := List.mem_filterMap.mp hc'
      exact ⟨c', List.mem_filterMap.mpr ⟨e, List.mem_cons_of_mem _ he, hce⟩, hrest⟩
    · obtain rfl : i = j := by
        obtain ⟨e, he, htask⟩ := hlater
        rcases List.mem_cons.mp he with rfl | he
        · exact htask
        · exact absurd ⟨e, he, htask⟩ hold
      have hnone : Pool.seen newer i = [] := List.filterMap_eq_nil_iff.mpr fun e he => if_neg fun htask => hold ⟨e, he, htask⟩
      have hseen : Pool.seen p.log i = ⟨.write (.insertMemory row), .ok ()⟩ :: Pool.seen older i := by
        rw [hlog]
        unfold Pool.seen at hnone ⊢
        rw [List.filterMap_append, hnone, List.filterMap_cons]
        simp
      obtain ⟨ids, now, rfl⟩ := hc.2.2 row _ hseen
      obtain ⟨rows, marked, group, text, vector, rest, hhead, -, -, rfl, -⟩ := hc.1
      refine ⟨⟨row.userId, row.id, group.map MemoryRow.id⟩, List.mem_filterMap.mpr ⟨_, List.mem_cons_self, rfl⟩, rfl, rfl, ?_⟩
      rw [hseen] at hhead
      have hrow := congrArg Sigma.fst (List.cons.inj hhead).1
      simp only [Cmd.write.injEq, Write.insertMemory.injEq] at hrow
      exact ⟨t.app, text, vector, now, group, hrow, rfl⟩

/-- What was read stays there, and belongs to no cluster marked before it was read. -/
theorem reads_cons (h : Consolidating p) (bm25 : Bm25 F) (c : Cmd F)
    (hext : ∀ id user s, p.state.db.standings id = some (user, s) → ∃ s', (exec bm25 c p.state).2.db.standings id =
      some (user, s'))
    {newer older : List (Event (Cmd F) Cmd.Res)} {j : ℕ} {user : String} {rows : List (MemoryRow F)}
    (heq : ⟨i, c, (exec bm25 c p.state).1⟩ :: p.log = newer ++ ⟨j, .query (.hotEmbedded user), .ok rows⟩ :: older) :
    ∀ r ∈ rows, (∃ s, (exec bm25 c p.state).2.db.standings r.id = some (user, s)) ∧ ∀ c ∈ clusters older, r.id ∉ c.ids := by
  intro r hr
  cases newer with
  | cons e newer =>
    obtain ⟨-, hlog⟩ := List.cons.inj heq
    obtain ⟨⟨s, hs⟩, hfree⟩ := h.reads newer older j user rows hlog r hr
    exact ⟨hext _ _ _ hs, hfree⟩
  | nil =>
    obtain ⟨hevent, rfl⟩ := List.cons.inj heq
    simp only [Event.mk.injEq] at hevent
    obtain ⟨-, rfl, hans⟩ := hevent
    have hans' := eq_of_heq hans
    simp only [exec] at hans'
    split at hans' <;> cases hans'
    obtain ⟨hmem, hhot⟩ := List.mem_filter.mp hr
    simp only [MemoryRow.hot, Bool.and_eq_true, Bool.not_eq_true', beq_iff_eq] at hhot
    obtain ⟨⟨huser, -, hs⟩, -⟩ := hhot
    have hlive : p.state.db.standings r.id = some (user, .live) := by
      rw [standings_of_mem h.grounded.keyed hmem, MemoryRow.standing, hs, huser]
      rfl
    refine ⟨⟨_, hlive⟩, fun c hc hid => ?_⟩
    have hmoved := h.kept c hc r.id hid
    rw [hlive] at hmoved
    cases hmoved

theorem turn (h : Consolidating p) (bm25 : Bm25 F) {c : Cmd F} (hn : p.next? i = some (t, c)) (hg : Undivided p i t c) :
    Consolidating (p.turn (exec bm25) i) := by
  have hc : t.consolidates (Pool.seen p.log i) c := h.obeys.allowed hn
  have hgrounded := h.grounded.turn bm25 (h.obeys.mono fun _ _ _ hc => hc.1) hn
  have hqueue := h.queue.turn bm25 hn
  have hobeys := h.obeys.turn (x := exec bm25) i
  obtain ⟨k, -, hturn⟩ := Pool.turn_some (x := exec bm25) hn
  -- a marking adds a cluster; nothing else does, and nothing undoes one
  by_cases hmark : ∃ user summaryId ids now, c = .write (.supersedeCluster user summaryId ids now)
  · obtain ⟨user, summaryId, ids, now, rfl⟩ := hmark
    have hdisjoint := h.disjoint hc.1 hg
    obtain ⟨hans, hstand⟩ := exec_supersedeCluster bm25 user summaryId ids now hg.1
    have hext : ∀ id owner s, p.state.db.standings id = some (owner, s) → ∃ s',
        (exec bm25 (.write (.supersedeCluster user summaryId ids now)) p.state).2.db.standings id = some (owner, s') := by
      intro id owner s hs
      rw [hstand]
      cases hS : owner == user && ids.contains id with
      | true => exact ⟨_, Table.redirect_of_mem _ (S := fun id owner => owner == user && ids.contains id) hs hS⟩
      | false => exact ⟨s, Table.redirect_of_not_mem (S := fun id owner => owner == user && ids.contains id) hs hS⟩
    refine ⟨hobeys, hgrounded, hqueue, ?_, ?_, ?_, ?_⟩
    · rw [hturn]
      exact List.pairwise_cons.mpr ⟨hdisjoint, h.apart⟩
    · rw [hturn]
      intro c' hc' id hid
      show (exec bm25 _ p.state).2.db.standings id = _
      rw [hstand]
      rcases List.mem_cons.mp hc' with rfl | hc'
      · obtain ⟨rows, marked, group, text, vector, rest, hseen, ⟨newer, older, rfl, -⟩, hsub, rfl, -⟩ := hc.1
        rw [← List.cons_append] at hseen
        obtain ⟨before, after, hlog, -, -⟩ := Pool.seen_split hseen
        obtain ⟨m, hm, rfl⟩ := List.mem_map.mp hid
        obtain ⟨⟨s, hs⟩, -⟩ := h.reads before after i user rows hlog m (hsub.subset hm)
        refine Table.redirect_of_mem _ hs ?_
        simpa using hid
      · have hnot : id ∉ ids := fun hmem => hdisjoint c' hc' hmem hid
        exact Table.redirect_of_not_mem (h.kept c' hc' id hid) (by simp [hnot])
    · rw [hturn]
      exact fun newer older j u rows heq => h.reads_cons bm25 _ hext heq
    · rw [hturn]
      exact fun newer older j row heq hlater => h.paid_cons _ hc heq hlater
  · have hextends := passes_extends bm25 h.grounded.keyed hc.2.1 (fun row hrow => live_of_derives (hrow ▸ hc.1))
      (fun llm pairs hp => h.queue.apart (hp ▸ hc.1)) fun user summaryId ids now heq => hmark ⟨user, summaryId, ids, now, heq⟩
    have hsame : clusters (⟨i, c, (exec bm25 c p.state).1⟩ :: p.log) = clusters p.log := by
      refine List.filterMap_cons_none ?_
      cases hcluster : clusterOf (⟨i, c, (exec bm25 c p.state).1⟩ : Event (Cmd F) Cmd.Res) with
      | none => rfl
      | some c' =>
        obtain ⟨now, hcmd⟩ := clusterOf_some hcluster
        exact absurd ⟨_, _, _, _, hcmd⟩ hmark
    refine ⟨hobeys, hgrounded, hqueue, ?_, ?_, ?_, ?_⟩
    · rw [hturn]
      exact hsame ▸ h.apart
    · rw [hturn]
      intro c' hc' id hid
      obtain ⟨s', hs', hkeep⟩ := hextends id _ _ (h.kept c' (hsame ▸ hc') id hid)
      rw [hkeep nofun] at hs'
      exact hs'
    · rw [hturn]
      refine fun newer older j u rows heq => h.reads_cons bm25 c (fun id owner s hs => ?_) heq
      obtain ⟨s', hs', -⟩ := hextends id owner s hs
      exact ⟨s', hs'⟩
    · rw [hturn]
      exact fun newer older j row heq hlater => h.paid_cons _ hc heq hlater

end Consolidating

theorem Reachable.queueApart {bm25 : Bm25 F} {guard : Caller F → World F → Cmd F → Prop} {w : World F}
    (h : Reachable bm25 anyCaller guard w) : w.db.QueueApart :=
  h.keeps (J := fun w => w.db.QueueApart) any_serves (fun w₀ h₀ => by simp [Db.QueueApart, h₀.db, Db.empty])
    fun _ _ _ _ hJ _ _ => queueApart_exec bm25 hJ

/-- Concurrent Ticks consolidate every memory at most once, and mark every cluster, provided no
Tick marks a memory that another one marked since it read it, no marking fails, and no Tick is
stopped between storing a summary and marking its cluster. -/
theorem once_of_undivided {bm25 : Bm25 F} {w : World F} (h : Reachable bm25 anyCaller anyStep w) {ts : List (Caller F)}
    (hts : ∀ t ∈ ts, t.isTick) {schedule : List ℕ} (hmeets : (accepted w ts).Meets (exec bm25) Undivided schedule)
    (hstopped : ∀ e ∈ ((accepted w ts).play (exec bm25) schedule).log,
      storedLast ((accepted w ts).play (exec bm25) schedule).log e.task = false) :
    ConsolidatedOnce ((accepted w ts).play (exec bm25) schedule) := by
  have hstart : Consolidating (accepted w ts) := by
    refine ⟨accepted_obeys fun t ht => ?_, grounded_accepted (h.sound any_serves) h.keyed ts, ⟨h.queueApart, ?_⟩,
        .nil, ?_, ?_, ?_⟩
    · obtain ⟨sync, hreq⟩ := hts t ht
      have hmarks : (handleRequest t.app t.request t.user).Issues Marks (fun _ _ => True) [] := by
        rw [hreq]
        exact marks_tick
      exact ((issues_derived t).and hmarks).imp fun _ _ _ => trivial
    · exact fun limit pairs hans => absurd hans List.not_mem_nil
    · exact fun c hc => nomatch hc
    · intro newer older j user rows heq
      cases newer <;> cases heq
    · intro newer older j row heq
      cases newer <;> cases heq
  have hend := Pool.play_keeps (J := Consolidating) (fun p i t c hp hn hg => hp.turn bm25 hn hg) hmeets hstart
  refine ⟨hend.apart, fun i row hrow => ?_⟩
  obtain ⟨newer, older, hlog⟩ := List.append_of_mem hrow
  -- a summary is not the last thing a Tick stores, so its marking is in the log
  have hlater : ∃ e ∈ newer, e.task = i := by
    by_contra hnone
    have hseen : Pool.seen newer i = [] :=
      List.filterMap_eq_nil_iff.mpr fun e he => if_neg fun htask => hnone ⟨e, he, htask⟩
    have hlast := hstopped _ hrow
    rw [hlog] at hlast
    unfold storedLast at hlast
    unfold Pool.seen at hseen hlast
    rw [List.filterMap_append, hseen, List.filterMap_cons] at hlast
    simp at hlast
  obtain ⟨c, hc, huser, hid, hsum⟩ := hend.paid newer older i row hlog hlater
  obtain ⟨e, he, hce⟩ := List.mem_filterMap.mp hc
  have hmem : c ∈ clusters ((accepted w ts).play (exec bm25) schedule).log :=
    List.mem_filterMap.mpr ⟨e, by rw [hlog]; exact List.mem_append_left _ he, hce⟩
  refine ⟨c, hmem, huser, hid, hsum, fun id hidc => ?_⟩
  obtain ⟨r, hr, hrid, hstand⟩ := mem_of_standings (hend.kept c hmem id hidc)
  obtain ⟨howner, hmoved⟩ := Prod.mk.inj hstand
  cases hs : r.isSuperseded with
  | false => simp [hs] at hmoved
  | true =>
    rw [hs, if_pos rfl] at hmoved
    exact ⟨r, hr, hrid, howner, hs, Standing.moved.inj hmoved⟩

end

/-! ### Two Ticks over five faded memories -/

def World.summarizing : World ℚ :=
  ⟨Db.empty, [], { Oracle.quiet with clock := fun n => n, llm := fun _ _ => .ok "tea" }⟩

def faded : World ℚ := (batch "alice" ["a", "b", "c", "d", "e"]).serve Bm25.none World.summarizing

theorem faded_reachable : Reachable Bm25.none anyCaller anyStep faded := by
  have hstart : World.summarizing.Start := ⟨rfl, rfl, quiet_start.distinct⟩
  exact hstart.reachable.serve trivial fun _ _ => trivial

def consolidate : Caller ℚ := ⟨{ AppState.flat with llm := true }, "alice", .lifecycle (.tick true)⟩

theorem consolidate_ticks : ∀ t ∈ [consolidate, consolidate], t.isTick := by
  have htick : consolidate.isTick := ⟨true, rfl⟩
  simp [htick]

/-- One after the other. -/
theorem once_in_turn : ConsolidatedOnce ((accepted faded [consolidate, consolidate]).play (exec Bm25.none)
    (List.replicate 14 0 ++ List.replicate 9 1)) :=
  once_of_undivided faded_reachable consolidate_ticks (by decide +kernel) (by decide +kernel)

/-- The first Tick reads the memories, the second consolidates them, then the first does it again. -/
theorem consolidated_twice : ¬ ∀ (w : World ℚ) (ts : List (Caller ℚ)) (schedule : List ℕ),
    Reachable Bm25.none anyCaller anyStep w → (∀ t ∈ ts, t.isTick ∧ t.app.llm = true) →
    ConsolidatedOnce ((accepted w ts).play (exec Bm25.none) schedule) := by
  intro h
  have honce := (h faded [consolidate, consolidate] (List.replicate 8 0 ++ List.replicate 14 1 ++ List.replicate 6 0)
    faded_reachable fun t ht => ⟨consolidate_ticks t ht, by simp at ht; rw [ht]; rfl⟩).once
  have htwice : (clusters ((accepted faded [consolidate, consolidate]).play (exec Bm25.none)
      (List.replicate 8 0 ++ List.replicate 14 1 ++ List.replicate 6 0)).log).map Cluster.ids =
        List.replicate 2 ["mem_", "mem_a", "mem_aa", "mem_aaa", "mem_aaaa"] := by decide +kernel
  rw [← List.pairwise_map (f := Cluster.ids) (R := List.Disjoint), htwice] at honce
  have hdisjoint := (List.pairwise_cons.mp honce).1 _ List.mem_cons_self
  exact hdisjoint List.mem_cons_self List.mem_cons_self

end CognitiveMemory
