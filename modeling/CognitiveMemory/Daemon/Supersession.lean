import CognitiveMemory.Daemon.Provenance
import CognitiveMemory.Store.Resolver

/-! Chains of `superseded_by`: when they end at a live memory of the same user, and which
requests break them. -/

namespace CognitiveMemory
open Prog Forwarding
variable {F : Type}

/-! ## Chains that end -/

/-- Following `superseded_by` from a superseded memory is finite and ends at a memory of the same
user that is not superseded. -/
def Db.Resolves (db : Db F) : Prop :=
  ∀ r ∈ db.memories, r.isSuperseded = true → ∃ n, db.standings.Reaches r.userId n r.id

section
variable {db db' : Db F}

theorem resolves_iff (hk : db.Keyed) : db.Resolves ↔ db.standings.Resolves := by
  constructor
  · intro h id e he
    obtain ⟨r, hr, rfl, rfl⟩ := mem_of_standings he
    cases hs : r.isSuperseded with
    | true => exact h r hr hs
    | false =>
      have hlive : db.standings r.id = some (r.userId, .live) := by simpa [MemoryRow.standing, hs] using he
      exact ⟨0, hlive⟩
  · exact fun h r hr _ => h r.id r.standing (standings_of_mem hk hr)

theorem standings_delete (hk : db.Keyed) {p : MemoryRow F → Bool} {S : String → String → Bool}
    (hp : ∀ r, p r = S r.id r.userId) : (db.deleteMemories p).standings = db.standings.remove S := by
  have hkeyed : (db.deleteMemories p).Keyed := hk.sublist (List.filter_sublist.map _)
  funext id
  refine Option.ext fun e => ?_
  constructor
  · intro he
    obtain ⟨r, hr, rfl, rfl⟩ := mem_of_standings he
    obtain ⟨hmem, hkeep⟩ := List.mem_filter.mp hr
    refine Table.remove_some.mpr ⟨standings_of_mem hk hmem, ?_⟩
    show S r.id r.userId = false
    simpa [hp] using hkeep
  · intro he
    obtain ⟨he, hS⟩ := Table.remove_some.mp he
    obtain ⟨r, hr, rfl, rfl⟩ := mem_of_standings he
    have hkeep : p r = false := (hp r).trans hS
    exact standings_of_mem hkeyed (List.mem_filter.mpr ⟨hr, by simp [hkeep]⟩)

theorem standings_insert {row : MemoryRow F} (h : db.insertMemory row = .ok db') (hlive : row.isSuperseded = false) :
    db.standings row.id = none ∧ db'.standings = db.standings.insert row.id row.userId := by
  have hnew : db.standings row.id = none := by
    cases hrow : db.standings row.id with
    | none => rfl
    | some e =>
      obtain ⟨r, hr, hid, -⟩ := mem_of_standings hrow
      exact absurd hid (insertMemory_fresh h r hr)
  refine ⟨hnew, funext fun id => ?_⟩
  rw [insertMemory_ok h]
  unfold Db.standings Table.insert
  rw [List.map_append, List.map_singleton, List.lookup_append]
  by_cases hid : id = row.id
  · subst hid
    have hnone : (db.memories.map MemoryRow.entry).lookup row.id = none := hnew
    simp [hnone, MemoryRow.entry, MemoryRow.standing, hlive]
  · have hne : (id == row.id) = false := beq_eq_false_iff_ne.mpr hid
    simp [MemoryRow.entry, List.lookup_cons, hid, hne]

theorem standings_marked {user target : String} {ids : List String} {f : MemoryRow F → MemoryRow F}
    (hf : ∀ r, (f r).entry = (r.id, r.userId, .moved (some target))) :
    (db.modifyEach (owned user) (fun _ => f) ids).1.standings =
      db.standings.redirect (fun id owner => owner == user && ids.contains id) target := by
  rw [modifyEach_fst]
  induction ids generalizing db with
  | nil =>
    have hnothing : (fun (id owner : String) => owner == user && [].contains id) = fun _ _ => false := by
      funext id owner
      simp
    rw [hnothing, Table.redirect_nothing]
    rfl
  | cons id ids ih =>
    have hone : (db.modify (owned user id) f).standings =
        db.standings.redirect (fun k owner => owner == user && k == id) target :=
      standings_modify (fun _ => rfl) hf
    rw [List.foldl_cons, ih, hone, Table.redirect_redirect]
    congr 1
    funext k owner
    rw [List.contains_cons, Bool.and_or_distrib_left]

/-! ## Statements -/

/-- A statement that marks a memory of the user names a target whose chain ends at a live memory
of the user and passes none of the marked ones. -/
def Db.MayMark (db : Db F) (user : String) (ids : List String) (target : String) : Prop :=
  (∃ r ∈ db.memories, ownedAmong user ids r) →
    ∃ n < db.memories.length, (db.deleteMemories (ownedAmong user ids)).standings.Reaches user n target

def Db.MayDelete (db : Db F) (p : MemoryRow F → Bool) : Prop :=
  ∀ r ∈ db.memories, p r = false → r.isSuperseded = true → ∀ r' ∈ db.memories, r.supersededBy = some r'.id → p r' = false

def Db.Keeps (db : Db F) : Write F → Prop
  | .markSuperseded user ids target | .supersedeCluster user target ids _ => db.MayMark user ids target
  | .deleteMemory user id => db.MayDelete (owned user id)
  | .deleteMany user ids => db.MayDelete (ownedAmong user ids)
  | _ => True

instance (db : Db F) (w : Write F) : Decidable (db.Keeps w) := by
  unfold Db.Keeps Db.MayMark Db.MayDelete
  induction w using Write.casesOn <;> infer_instance

theorem marked_resolves_iff (hk : db.Keyed) (hk' : db'.Keyed) (h : db.Resolves) {user target : String} {ids : List String}
    (hmark : db'.standings = db.standings.redirect (fun id owner => owner == user && ids.contains id) target) :
    db'.Resolves ↔ db.MayMark user ids target := by
  have howner : ∀ k e, db.standings k = some e → (e.1 == user && ids.contains k) = true → e.1 = user := by
    intro k e _ hS
    simp only [Bool.and_eq_true, beq_iff_eq] at hS
    exact hS.1
  have hdelete := standings_delete hk (p := ownedAmong user ids)
      (S := fun id owner => owner == user && ids.contains id) fun _ => rfl
  rw [resolves_iff hk', hmark]
  unfold Db.MayMark
  rw [hdelete]
  constructor
  · rintro hr ⟨r, hr', ho⟩
    obtain ⟨n, hn⟩ := Table.reaches_of_redirect hr howner (standings_of_mem hk hr') ho
    have hlt : n < (db.memories.map MemoryRow.id).length := hn.lt_length fun k e he => by
      obtain ⟨r, hr, rfl, -⟩ := mem_of_standings (Table.remove_some.mp he).1
      exact List.mem_map_of_mem hr
    exact ⟨n, by simpa using hlt, hn⟩
  · intro hmay
    refine ((resolves_iff hk).mp h).redirect howner ?_
    rintro ⟨k, e, he, hS⟩
    obtain ⟨r, hr, rfl, rfl⟩ := mem_of_standings he
    obtain ⟨n, -, hn⟩ := hmay ⟨r, hr, hS⟩
    exact ⟨n, hn⟩

theorem deleted_resolves_iff (hk : db.Keyed) (h : db.Resolves) {p : MemoryRow F → Bool} {S : String → String → Bool}
    (hp : ∀ r, p r = S r.id r.userId) : (db.deleteMemories p).Resolves ↔ db.MayDelete p := by
  have hkeyed : (db.deleteMemories p).Keyed := hk.sublist (List.filter_sublist.map _)
  have htable := (resolves_iff hk).mp h
  rw [resolves_iff hkeyed, standings_delete hk hp, htable.remove_iff]
  constructor
  · intro hkeep r hr hpr hs r' hr' hby
    have hentry : db.standings r.id = some (r.userId, .moved (some r'.id)) := by
      rw [standings_of_mem hk hr, MemoryRow.standing, hs, hby]
      rfl
    obtain ⟨s, hs'⟩ := htable.owner hentry
    have huser : r'.userId = r.userId := by
      rw [standings_of_mem hk hr'] at hs'
      exact congrArg Prod.fst (Option.some.inj hs')
    rw [hp, huser]
    exact hkeep r.id r.userId r'.id s hentry ((hp r).symm.trans hpr) hs'
  · intro hmay k o next s hk' hS hnext
    obtain ⟨r, hr, rfl, hstand⟩ := mem_of_standings hk'
    obtain ⟨r', hr', rfl, hstand'⟩ := mem_of_standings hnext
    cases hs : r.isSuperseded with
    | false =>
      rw [MemoryRow.standing, hs] at hstand
      cases hstand
    | true =>
      rw [MemoryRow.standing, hs] at hstand
      simp only [if_true, Prod.mk.injEq, Standing.moved.injEq] at hstand
      have hkeep := hmay r hr ((hp r).trans (hstand.1 ▸ hS)) hs r' hr' hstand.2
      have huser : r'.userId = o := congrArg Prod.fst hstand'
      rw [hp, huser] at hkeep
      exact hkeep

/-- Clearing a user breaks no chain, for chains stay with their user. -/
theorem mayDelete_user (hk : db.Keyed) (h : db.Resolves) (user : String) : db.MayDelete (·.userId == user) := by
  intro r hr hpr hs r' hr' hby
  have hentry : db.standings r.id = some (r.userId, .moved (some r'.id)) := by
    rw [standings_of_mem hk hr, MemoryRow.standing, hs, hby]
    rfl
  obtain ⟨s, hs'⟩ := ((resolves_iff hk).mp h).owner hentry
  rw [standings_of_mem hk hr'] at hs'
  have huser : r'.userId = r.userId := congrArg Prod.fst (Option.some.inj hs')
  show (r'.userId == user) = false
  rw [huser]
  exact hpr

def Write.marksRows : Write F → Prop
  | .markSuperseded .. | .supersedeCluster .. => True
  | _ => False

variable [Field F] [LinearOrder F]

/-- The others leave `is_superseded` and `superseded_by` alone. -/
theorem Write.entries_same {w : Write F} {a : w.Res} (hw : ¬ w.reshapes) (hmark : ¬ w.marksRows)
    (h : w.apply db = .ok (a, db')) :
    db'.memories.map MemoryRow.entry = db.memories.map MemoryRow.entry := by
  refine (Write.edited hw h).map_eq fun f hf r => ?_
  cases w with
  | markSuperseded | supersedeCluster => exact absurd trivial hmark
  | updateMemory | promoteToCore | migrateToCold | migrateToHot | migrateToHotMany | convertToStub | queueConflicts =>
    obtain rfl := hf
    rfl
  | applyDirectBoost | updateRetentionScores | tickExpire =>
    obtain ⟨x, -, rfl⟩ := hf
    rfl
  | tickFloor =>
    rcases hf with rfl | rfl | rfl <;> rfl
  | _ => exact hf.elim

theorem Write.resolves_iff {w : Write F} {a : w.Res} (hk : db.Keyed) (h : db.Resolves)
    (hinsert : ∀ row, w = .insertMemory row → row.isSuperseded = false) (happly : w.apply db = .ok (a, db')) :
    db'.Resolves ↔ db.Keeps w := by
  have hk' : db'.Keyed := Write.keyed hk happly
  by_cases hw : w.reshapes
  · cases w with
    | insertMemory row =>
      obtain ⟨d, hd, hp⟩ := map_ok happly
      cases hp
      obtain ⟨hnew, hins⟩ := standings_insert hd (hinsert row rfl)
      refine iff_of_true ?_ trivial
      rw [CognitiveMemory.resolves_iff hk', hins]
      exact ((CognitiveMemory.resolves_iff hk).mp h).insert hnew
    | deleteMemory user id =>
      cases happly
      exact deleted_resolves_iff hk h (S := fun k owner => owner == user && k == id) fun _ => rfl
    | deleteMany user ids =>
      cases happly
      exact deleted_resolves_iff hk h (S := fun k owner => owner == user && ids.contains k) fun _ => rfl
    | clearUser user =>
      cases happly
      have hiff := deleted_resolves_iff hk h (p := fun r => r.userId == user) (S := fun _ owner => owner == user) fun _ => rfl
      exact iff_of_true (hiff.mpr (mayDelete_user hk h user)) trivial
    | _ => exact hw.elim
  · have hsame : ¬ w.marksRows → db'.Resolves := fun hmark => by
      rw [CognitiveMemory.resolves_iff hk', standings_same (Write.entries_same hw hmark happly)]
      exact (CognitiveMemory.resolves_iff hk).mp h
    cases w with
    | insertMemory | deleteMemory | deleteMany | clearUser => exact absurd trivial hw
    | markSuperseded user ids target =>
      cases happly
      exact marked_resolves_iff hk hk' h (standings_modify (fun _ => rfl) fun _ => rfl)
    | supersedeCluster user target ids now =>
      cases happly
      exact marked_resolves_iff hk hk' h (standings_marked fun _ => rfl)
    | _ => exact iff_of_true (hsame id) trivial

/-! ## The queue -/

theorem queued_apart {userId newId : String} {now : Int} {hits : List (String × F)}
    (h : db.queueConflicts userId newId now hits = .ok db') :
    ∀ c ∈ db'.conflictQueue, c ∈ db.conflictQueue ∨ c.newMemoryId ≠ c.existingMemoryId := by
  intro c hc
  refine (queued_queueConflicts h hc).imp_right fun ⟨_, hn, hne, _⟩ => ?_
  rw [hn]
  exact hne

/-- Queued pairs are pairs. -/
def Db.QueueApart (db : Db F) : Prop := ∀ c ∈ db.conflictQueue, c.newMemoryId ≠ c.existingMemoryId

theorem queueApart_exec (bm25 : Bm25 F) {w : World F} {c : Cmd F} (h : w.db.QueueApart) :
    (exec bm25 c w).2.db.QueueApart := by
  refine exec_keeps bm25 h ?_ fun llm pairs _ => ?_
  · rintro wr a db rfl happly c hc
    rcases (Write.queued_cached happly).1 c hc with hc | ⟨u, newId, hits, now, rfl, -⟩
    · exact h c hc
    · obtain ⟨d, hd, hp⟩ := map_ok happly
      cases hp
      rcases queued_apart hd c hc with hc | hne
      · exact h c hc
      · exact hne
  · exact fun c hc => h c ((resolving_effects llm w.oracle.llm pairs ⟨w.db, 0, 0⟩).2.2.1 hc)

structure QueueRead (p : Requests F) : Prop where
  queue : p.state.db.QueueApart
  pairs : ∀ limit pairs, Answered (answers p.log) (.query (.conflictPairs limit)) (.ok pairs) →
    ∀ pair ∈ pairs, pair.newMemoryId ≠ pair.existingMemoryId

theorem QueueRead.turn {p : Requests F} (h : QueueRead p) (bm25 : Bm25 F) {i : ℕ} {t : Caller F} {c : Cmd F}
    (hn : p.next? i = some (t, c)) : QueueRead (p.turn (exec bm25) i) := by
  obtain ⟨k, -, hturn⟩ := Pool.turn_some (x := exec bm25) hn
  rw [hturn]
  refine ⟨queueApart_exec bm25 h.queue, fun limit pairs hans pair hpair => ?_⟩
  rcases List.mem_cons.mp hans with hans | hans
  · obtain ⟨rfl, hans⟩ := Sigma.mk.inj hans
    obtain ⟨c, hc, rfl⟩ := mem_selected (eq_of_heq hans).symm hpair
    exact h.queue c hc
  · exact h.pairs limit pairs hans pair hpair

theorem QueueRead.apart {p : Requests F} (h : QueueRead p) {i : ℕ} {t : Caller F} {llm : Bool} {pairs : List ConflictPair}
    (hd : t.derives (Pool.seen p.log i) (.resolveConflicts llm pairs)) : ∀ pair ∈ pairs,
      pair.newMemoryId ≠ pair.existingMemoryId := by
  obtain ⟨limit, hans⟩ := hd
  exact h.pairs limit pairs ((seen_sublist p.log i).subset hans)

/-! ## Runs -/

/-- A statement to come keeps chains ending; the marking of a Tick does so by itself if nothing
was executed since the Tick stored its summary. -/
def Resolvable (p : Requests F) (i : ℕ) (_ : Caller F) (c : Cmd F) : Prop :=
  p.state.oracle.sqlFault 0 = false →
    match c with
    | .write (.supersedeCluster user summaryId ids now) =>
        (∃ e ∈ p.log.head?, e.task = i) ∨ p.state.db.Keeps (.supersedeCluster user summaryId ids now)
    | .write w => p.state.db.Keeps w
    | _ => True

instance (p : Requests F) (i : ℕ) (t : Caller F) (c : Cmd F) : Decidable (Resolvable p i t c) := by
  unfold Resolvable
  induction c using Cmd.casesOn with
  | write wr => induction wr using Write.casesOn <;> infer_instance
  | _ => infer_instance

structure Superseding (p : Requests F) : Prop where
  obeys : p.Obeys Caller.derives
  grounded : Grounded p
  resolves : p.state.db.Resolves
  queue : QueueRead p
  latest : ∀ j row, p.log.head? = some ⟨j, .write (.insertMemory row), .ok ()⟩ → row ∈ p.state.db.memories

theorem live_of_derives {t : Caller F} {h : Seen F} {row : MemoryRow F} (hd : t.derives h (.write (.insertMemory row))) :
    row.isSuperseded = false := by
  obtain ⟨-, ⟨args, id, vector, now, rfl⟩ | ⟨user, rows, marked, group, id, text, vector, now, -, -, rfl⟩⟩ := hd
  · unfold storedRow
    dsimp only
    split <;> rfl
  · rfl

theorem Superseding.keeps {p : Requests F} (h : Superseding p) {i : ℕ} {t : Caller F} {w : Write F}
    (hd : t.derives (Pool.seen p.log i) (.write w)) (hfault : p.state.oracle.sqlFault 0 = false)
    (hg : Resolvable p i t (.write w)) : p.state.db.Keeps w := by
  have hkeeps := hg hfault
  cases w with
  | supersedeCluster user summaryId ids now =>
    rcases hkeeps with ⟨⟨j, c, r⟩, he, rfl⟩ | hkeeps
    · obtain ⟨rows, marked, group, text, vector, rest, hseen, -, -, -, hapart⟩ := hd
      obtain ⟨log, hlog⟩ := List.head?_eq_some_iff.mp he
      have hfresh := (hapart (h.grounded.genuine.sublist (seen_sublist p.log j))).1
      rw [hlog] at hseen
      simp only [Pool.seen, List.filterMap_cons, if_true, List.cons.injEq, Sigma.mk.injEq] at hseen
      obtain ⟨⟨rfl, hans⟩, -⟩ := hseen
      cases hans
      -- The summary is still there, live and outside its cluster.
      have hrow := h.latest _ _ he
      rintro ⟨r, hr, -⟩
      have hk := h.grounded.keyed
      refine ⟨0, List.length_pos_of_mem hr, ?_⟩
      have hremove : (p.state.db.deleteMemories (ownedAmong user ids)).standings =
          p.state.db.standings.remove fun id owner => owner == user && ids.contains id := standings_delete hk fun _ => rfl
      rw [hremove]
      exact Table.remove_some.mpr ⟨standings_of_mem hk hrow, by simp [hfresh]⟩
    · exact hkeeps
  | _ => exact hkeeps

theorem Superseding.turn {p : Requests F} (h : Superseding p) (bm25 : Bm25 F) {i : ℕ} {t : Caller F} {c : Cmd F}
    (hn : p.next? i = some (t, c)) (hg : Resolvable p i t c) : Superseding (p.turn (exec bm25) i) := by
  have hd : t.derives (Pool.seen p.log i) c := h.obeys.allowed hn
  have hgrounded := h.grounded.turn bm25 h.obeys hn
  obtain ⟨k, -, hturn⟩ := Pool.turn_some (x := exec bm25) hn
  refine ⟨h.obeys.turn i, hgrounded, ?_, h.queue.turn bm25 hn, ?_⟩
  · rw [hturn]
    cases hfault : p.state.oracle.sqlFault 0 with
    | true =>
      show (exec bm25 c p.state).2.db.Resolves
      rw [exec_fault bm25 hfault]
      exact h.resolves
    | false =>
      refine exec_keeps bm25 h.resolves ?_ ?_
      · rintro wr a db rfl happly
        refine (Write.resolves_iff h.grounded.keyed h.resolves (fun row hrow => ?_) happly).mpr (h.keeps hd hfault hg)
        subst hrow
        exact live_of_derives hd
      · rintro llm pairs rfl
        have hmerged := resolving_merged llm p.state.oracle.llm (h.queue.apart hd) ⟨p.state.db, 0, 0⟩ h.grounded.keyed
        have hkeyed : (pairs.foldl (Resolving.pair llm p.state.oracle.llm) ⟨p.state.db, 0, 0⟩).db.Keyed := by
          unfold Db.Keyed
          rw [(resolving_effects llm p.state.oracle.llm pairs ⟨p.state.db, 0, 0⟩).1.ids]
          exact h.grounded.keyed
        exact (resolves_iff hkeyed).mpr (hmerged.resolves ((resolves_iff h.grounded.keyed).mp h.resolves))
  · rw [hturn]
    intro j row hhead
    have hevent := Option.some.inj hhead
    simp only [Event.mk.injEq] at hevent
    obtain ⟨-, rfl, hans⟩ := hevent
    exact exec_inserted bm25 (eq_of_heq hans)

section

/-- In all states of a run every chain ends at a live memory of its user, if and only if no
MarkSuperseded of the run names a target that does not so end, no Delete takes what a memory that
stays points at, and no Tick finds the chain of its new summary broken before it marks the cluster. -/
theorem resolves_iff_resolvable [Elementary F] {bm25 : Bm25 F} {w : World F} (h : w.Start) {ts : List (Caller F)}
    {schedule : List ℕ} :
    (∀ is js, schedule = is ++ js → ((accepted w ts).play (exec bm25) is).state.db.Resolves) ↔
      (accepted w ts).Meets (exec bm25) Resolvable schedule := by
  have hkeyed : w.db.Keyed := by simp [Db.Keyed, h.db, Db.empty]
  have hgrounded : Grounded (accepted w ts) := grounded_accepted (h.sound EmbeddingSpec.any) hkeyed ts
  constructor
  · refine Pool.meets_of_prefixes (J := fun p => Grounded p ∧ p.Obeys Caller.derives) (P := fun w' => w'.db.Resolves) ?_ ?_
      ⟨hgrounded, derives_accepted w ts⟩
    · exact fun p i t c hp hn => ⟨hp.1.turn bm25 hp.2 hn, hp.2.turn i⟩
    · intro p i t c hp hn hbefore hafter hfault
      have hd : t.derives (Pool.seen p.log i) c := hp.2.allowed hn
      obtain ⟨k, -, hturn⟩ := Pool.turn_some (x := exec bm25) hn
      rw [hturn] at hafter
      cases c with
      | write wr =>
        have hkeeps : p.state.db.Keeps wr := by
          simp only [exec, hfault, Bool.false_eq_true, if_false] at hafter
          cases happly : wr.apply p.state.db with
          | ok r =>
            rw [happly] at hafter
            -- one write keeps all chains resolving just if it is one of those the condition allows
            refine (Write.resolves_iff hp.1.keyed hbefore (fun row hrow => ?_) happly).mp hafter
            subst hrow
            exact live_of_derives hd
          | error e =>
            cases wr with
            | markSuperseded | supersedeCluster | deleteMemory | deleteMany => cases happly
            | _ => trivial
        cases wr with
        | supersedeCluster => exact .inr hkeeps
        | _ => exact hkeeps
      | _ => trivial
  · intro hmeets is js heq
    have hstart : Superseding (accepted w ts) := by
      refine ⟨derives_accepted w ts, hgrounded, ?_, ⟨?_, fun limit pairs hans => absurd hans List.not_mem_nil⟩,
          fun j row hhead => ?_⟩
      · show w.db.Resolves
        rw [h.db]
        intro r hr
        cases hr
      · show w.db.QueueApart
        rw [h.db]
        intro c hc
        cases hc
      · cases hhead
    exact (Pool.play_prefixes (J := Superseding) (fun p i t c hp hn hg => hp.turn bm25 hn hg) hmeets hstart heq).resolves

end
end

/-! ### Marking by hand -/

def keep : Caller ℚ := ⟨.flat, "alice", .memory (.store ⟨"alice", "tea", "semantic", "fact", "{}", none⟩)⟩

def tick : Caller ℚ := ⟨.flat, "alice", .lifecycle (.tick true)⟩

def mark (ids : List String) (target : String) :
    Caller ℚ := ⟨.flat, "alice", .lifecycle (.markSuperseded "alice" ids target)⟩

/-- The Tick lets the first memory win over the second, the mark lets the third win over the first. -/
theorem resolves_after_mark :
    ((accepted World.quiet [keep, keep, tick, keep, mark ["mem_"] "mem_aa"]).play (exec Bm25.none)
      (List.replicate 8 0 ++ List.replicate 6 1 ++ List.replicate 7 2 ++ List.replicate 6 3 ++ [4])).state.db.Resolves :=
  (resolves_iff_resolvable quiet_start).mpr (by decide +kernel) _ [] (List.append_nil _).symm

def astray : Db ℚ :=
  ((accepted World.quiet [keep, mark ["mem_"] "nowhere"]).play (exec Bm25.none) (List.replicate 8 0 ++ [1])).state.db

theorem mark_resolves_nowhere : ¬ ∀ (w : World ℚ) (ts : List (Caller ℚ)) (schedule : List ℕ), w.Start →
    ((accepted w ts).play (exec Bm25.none) schedule).state.db.Resolves := by
  intro h
  have hend : astray.Resolves := h _ _ _ quiet_start
  have hrow : ∃ r ∈ astray.memories, r.isSuperseded = true ∧
      astray.standings r.id = some (r.userId, .moved (some "nowhere")) := by decide +kernel
  have hnowhere : astray.standings "nowhere" = none := by decide +kernel
  obtain ⟨r, hr, hs, hby⟩ := hrow
  obtain ⟨n, hn⟩ := hend r hr hs
  cases n with
  | zero =>
    have hlive : astray.standings r.id = some (r.userId, .live) := hn
    rw [hby] at hlive
    cases hlive
  | succ n =>
    obtain ⟨owner, next, hnext, hrest⟩ := hn
    rw [hby] at hnext
    cases hnext
    obtain ⟨e, he⟩ := hrest.entry
    rw [hnowhere] at he
    cases he

end CognitiveMemory
