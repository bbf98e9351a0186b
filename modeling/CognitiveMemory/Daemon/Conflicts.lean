import CognitiveMemory.Daemon.Supersession
import CognitiveMemory.Daemon.Writes

/-! What resolving queued conflicts does to the memories, while other requests run. -/

namespace CognitiveMemory
open Prog Forwarding
variable {F : Type}

/-! ## What a resolver has selected -/

def Db.selectedPairs [LinearOrder F] (db : Db F) : List ConflictPair :=
  ((sortDesc ConflictRow.similarity db.conflictQueue).take 50).map ConflictRow.pair

def Caller.selects (t : Caller F) (h : Seen F) : Cmd F → Prop
  | .resolveConflicts llm pairs => llm = t.app.llm ∧ Answered h (.query (.conflictPairs 50)) (.ok pairs)
  | _ => True

def Cmd.resolvesNothing : Cmd F → Prop
  | .resolveConflicts .. => False
  | _ => True

theorem Cmd.resolvesNothing.selects {c : Cmd F} (hc : c.resolvesNothing) (t : Caller F) (h : Seen F) : t.selects h c := by
  cases c with
  | resolveConflicts => exact hc.elim
  | _ => trivial

section
variable {t : Caller F}

theorem issues_unresolving {ε α : Type} {p : Prog (Cmd F) Cmd.Res ε α} (hp : p.Only Cmd.resolvesNothing) (h : Seen F) :
    p.Issues t.selects (fun _ _ => True) h :=
  (hp.issues (fun h _ hc => hc.selects t h) h).imp fun _ _ _ => trivial

theorem issues_resolveConflicts {h : Seen F} : (resolveConflicts t.app).Issues t.selects (fun _ _ => True) h := by
  refine Issues.seq (P := fun pairs h' => Answered h' (.query (.conflictPairs 50)) (.ok pairs)) (Issues.mapError ?_) ?_
  · refine ⟨trivial, fun r => ?_⟩
    cases r with
    | error e => trivial
    | ok pairs => exact List.mem_cons_self
  · intro pairs h' hread
    split
    · trivial
    · refine Issues.mapError ⟨⟨rfl, hread⟩, fun r => ?_⟩
      cases r <;> trivial

theorem issues_selects [Field F] [LinearOrder F] [Elementary F] (t : Caller F) :
    (handleRequest t.app t.request t.user).Issues t.selects (fun _ _ => True) [] := by
  by_cases htick : t.isTick
  · obtain ⟨sync, hreq⟩ := htick
    rw [hreq]
    have hother : ∀ {ε α : Type} {p : Prog (Cmd F) Cmd.Res ε α} (h : Seen F), p.Only Cmd.resolvesNothing →
        p.Issues t.selects (fun _ _ => True) h := fun h hp => issues_unresolving hp h
    refine .seq (hother _ (only_clock trivial)) fun now h₁ _ => .seq (hother _ (only_mapError (only_query trivial)))
        fun hot h₂ _ => ?_
    refine .seq (hother _ (only_mapError (only_write trivial))) fun _ h₃ _ => ?_
    refine .seq (hother _ (only_mapError (only_query trivial))) fun stale h₄ _ => ?_
    refine .seq (hother _ (only_mapError (only_write trivial))) fun _ h₅ _ => .seq issues_resolveConflicts fun _ h₆ _ => ?_
    refine .seq (hother _ (only_consolidateAtTick (fun c hc => ?_) (fun _ _ => trivial) t.app now)) fun _ _ _ => trivial
    cases c with
    | resolveConflicts => exact hc
    | _ => trivial
  · refine issues_unresolving ((only_issued t.app t.request t.user).imp fun c hc => ?_) []
    cases c with
    | resolveConflicts => exact htick hc
    | _ => trivial

end

structure Selecting (p : Requests F) : Prop where
  obeys : p.Obeys Caller.selects
  keyed : p.state.db.Keyed
  queue : QueueRead p
  numbered : p.state.db.QueueNumbered
  known : ∀ limit pairs, Answered (answers p.log) (.query (.conflictPairs limit)) (.ok pairs) → ∀ pair ∈ pairs,
    pair.id ≤ p.state.db.conflictSeq ∧ ∀ c ∈ p.state.db.conflictQueue, c.id = pair.id → c.pair = pair

theorem Selecting.turn [Field F] [LinearOrder F] {p : Requests F} (h : Selecting p) (bm25 : Bm25 F) {i : ℕ}
    {t : Caller F} {c : Cmd F} (hn : p.next? i = some (t, c)) : Selecting (p.turn (exec bm25) i) := by
  have hqueue := h.queue.turn bm25 hn
  have hobeys : (p.turn (exec bm25) i).Obeys Caller.selects := h.obeys.turn i
  obtain ⟨k, -, hturn⟩ := Pool.turn_some (x := exec bm25) hn
  rw [hturn] at hqueue hobeys ⊢
  have hlater := requeued_exec bm25 c p.state
  refine ⟨hobeys, keyed_exec bm25 h.keyed, hqueue, hlater.numbered h.numbered, fun limit pairs hans pair hpair => ?_⟩
  -- Ids are never used again, so an entry under a known id is the one that was read.
  have hkept : ∀ n ≤ p.state.db.conflictSeq, (∀ c ∈ p.state.db.conflictQueue, c.id = n → c.pair = pair) →
      n ≤ (exec bm25 c p.state).2.db.conflictSeq ∧ ∀ c' ∈ (exec bm25 c p.state).2.db.conflictQueue, c'.id = n → c'.pair = pair :=
    fun n hle hknown => ⟨hle.trans hlater.1, fun c' hc' hid => hknown c' (hlater.mem hc' (hid ▸ hle)) hid⟩
  rcases List.mem_cons.mp hans with hans | hans
  · obtain ⟨rfl, hans⟩ := Sigma.mk.inj hans
    obtain ⟨c, hc, rfl⟩ := mem_selected (eq_of_heq hans).symm hpair
    refine hkept c.id (h.numbered.2 c hc) fun c' hc' hid => ?_
    rw [List.inj_on_of_nodup_map h.numbered.1 hc' hc hid]
  · obtain ⟨hle, hknown⟩ := h.known limit pairs hans pair hpair
    exact hkept pair.id hle hknown

/-! ## One transaction -/

def Db.Live (db : Db F) (id : String) : Prop := ∃ r ∈ db.memories, r.id = id ∧ r.isSuperseded = false

theorem live_iff {db : Db F} (hk : db.Keyed) {id : String} : db.Live id ↔ ∃ user, db.standings id = some (user, .live) := by
  constructor
  · rintro ⟨r, hr, rfl, hs⟩
    exact ⟨r.userId, by rw [standings_of_mem hk hr, MemoryRow.standing, hs]; rfl⟩
  · rintro ⟨user, hlive⟩
    obtain ⟨r, hr, hid, hstanding⟩ := mem_of_standings hlive
    exact ⟨r, hr, hid, unsuperseded_iff.mpr (congrArg Prod.snd hstanding)⟩

instance (db : Db F) : Decidable db.Keyed := inferInstanceAs (Decidable (List.Nodup _))

instance (db : Db F) : Decidable db.QueueNumbered := inferInstanceAs (Decidable (_ ∧ _))

instance (db : Db F) : Decidable db.QueueApart := inferInstanceAs (Decidable (∀ c ∈ db.conflictQueue, _))

instance (db : Db F) (id : String) : Decidable (db.Live id) := by
  unfold Db.Live
  infer_instance

def Db.newlySuperseded (db db' : Db F) : List (MemoryRow F) :=
  db'.memories.filter fun r => r.isSuperseded && !db.memories.any fun r₀ => r₀.id == r.id && r₀.isSuperseded

def ConflictPair.mentions (p : ConflictPair) (id : String) : Bool := id == p.newMemoryId || id == p.existingMemoryId

/-- What a resolver that has selected `pairs` does: exactly these leave the queue; it takes pair after
pair, marking at most one of two live memories superseded by the other; every component of the pairs
that had a live memory has one; other memories stay as they are; the count is that of the memories
newly superseded. -/
structure Resolved [LinearOrder F] (llm : Bool) (pairs : List ConflictPair) (db db' : Db F) (n : ℕ) : Prop where
  dequeued : ∀ c, c ∈ db'.conflictQueue ↔ c ∈ db.conflictQueue ∧ c.pair ∉ pairs
  resolution : Resolution llm db pairs n db'
  survives : ∀ a, db.Live a → ∃ b, Relation.EqvGen (fun w l => ∃ p ∈ pairs, p.joins w l) a b ∧ db'.Live b
  frame : db'.memories.filter (fun r => !pairs.any (·.mentions r.id)) = db.memories.filter fun r => !pairs.any (·.mentions r.id)
  counted : (db.newlySuperseded db').length = n

theorem length_newlySuperseded {db db' : Db F} (hk : db.Keyed) (hk' : db'.Keyed) {beats : String → String → Prop}
    {losers : List String}
    (h : db.standings.Contest beats losers db'.standings) : (db.newlySuperseded db').length = losers.length := by
  have hnodup : ((db.newlySuperseded db').map MemoryRow.id).Nodup := List.Nodup.sublist (List.filter_sublist.map _) hk'
  have hmoved : ∀ {d : Db F}, d.Keyed → ∀ {r : MemoryRow F}, r ∈ d.memories → r.isSuperseded = true →
      d.standings r.id = some (r.userId, .moved r.supersededBy) := by
    intro d hd r hr hs
    rw [standings_of_mem hd hr, MemoryRow.standing, hs]
    rfl
  have hperm : ((db.newlySuperseded db').map MemoryRow.id).Perm losers := by
    refine (List.perm_ext_iff_of_nodup hnodup h.nodup).mpr fun id => ?_
    constructor
    · intro hid
      obtain ⟨r, hr, rfl⟩ := List.mem_map.mp hid
      obtain ⟨hr, hnew⟩ := List.mem_filter.mp hr
      simp only [Bool.and_eq_true, Bool.not_eq_true', List.any_eq_false, beq_iff_eq, not_and] at hnew
      by_contra hlost
      have hsame := h.not_mem hlost
      rw [hmoved hk' hr hnew.1] at hsame
      obtain ⟨r₀, hr₀, hid, hstanding⟩ := mem_of_standings hsame.symm
      refine hnew.2 r₀ hr₀ hid (Bool.not_eq_false _ ▸ fun hlive => ?_)
      cases (unsuperseded_iff.mp hlive).symm.trans (congrArg Prod.snd hstanding)
    · intro hlost
      obtain ⟨user, winner, hlive, hlater, -⟩ := h.mem hlost
      obtain ⟨r, hr, rfl, hstanding⟩ := mem_of_standings hlater
      refine List.mem_map_of_mem (List.mem_filter.mpr ⟨hr, ?_⟩)
      simp only [Bool.and_eq_true, Bool.not_eq_true', List.any_eq_false, beq_iff_eq, not_and]
      constructor
      · rw [← Bool.not_eq_false]
        intro hlive
        cases (unsuperseded_iff.mp hlive).symm.trans (congrArg Prod.snd hstanding)
      · intro r₀ hr₀ hid hs
        rw [← hid, hmoved hk hr₀ hs] at hlive
        cases hlive
  rw [← hperm.length_eq, List.length_map]

variable [Field F] [LinearOrder F]

theorem resolved_of_fold (llm : Bool) (answers : ℕ → String → Except String String) {pairs : List ConflictPair} {db : Db F}
    (hne : ∀ p ∈ pairs, p.newMemoryId ≠ p.existingMemoryId) (hk : db.Keyed)
    (hknown : ∀ p ∈ pairs, ∀ c ∈ db.conflictQueue, c.id = p.id → c.pair = p) :
    Resolved llm pairs db (pairs.foldl (Resolving.pair llm answers) ⟨db, 0, 0⟩).db
      (pairs.foldl (Resolving.pair llm answers) ⟨db, 0, 0⟩).resolved := by
  let start : Resolving F := ⟨db, 0, 0⟩
  have hstart : start.db.Keyed := hk
  obtain ⟨n, hresolution, hcount⟩ := resolution_of_fold llm answers hne hstart
  have hk' : (pairs.foldl (Resolving.pair llm answers) ⟨db, 0, 0⟩).db.Keyed := by
    unfold Db.Keyed
    rw [(resolving_effects llm answers pairs ⟨db, 0, 0⟩).1.ids]
    exact hk
  obtain ⟨losers, hcontest, hlen, -⟩ := hresolution.contest
  rw [hcount, Nat.zero_add]
  let q : String → Bool := fun id => !pairs.any (·.mentions id)
  refine ⟨fun c => ?_, hresolution, fun a ha => ?_, filter_fold (q := q) llm answers fun p hp => ?_, ?_⟩
  · rw [queue_fold, List.mem_filter]
    refine and_congr_right fun hc => ?_
    rw [Bool.not_eq_true', ← Bool.not_eq_true, List.contains_iff_mem, not_iff_not]
    constructor
    · intro hid
      obtain ⟨p, hp, hid⟩ := List.mem_map.mp hid
      rw [hknown p hp c hc hid.symm]
      exact hp
    · exact fun hp => List.mem_map_of_mem (f := ConflictPair.id) hp
  · obtain ⟨user, hlive⟩ := (live_iff hk).mp ha
    obtain ⟨b, hconnected, hlive'⟩ := (hcontest.mono fun _ _ h => h.1).survives hlive
    exact ⟨b, hconnected, (live_iff hk').mpr ⟨user, hlive'⟩⟩
  · have hmentions : ∀ id, p.mentions id → (!pairs.any (·.mentions id)) = false := by
      intro id hid
      rw [Bool.not_eq_false', List.any_eq_true]
      exact ⟨p, hp, hid⟩
    exact ⟨hmentions _ (by simp [ConflictPair.mentions]), hmentions _ (by simp [ConflictPair.mentions])⟩
  · rw [length_newlySuperseded hk hk' hcontest, hlen]

/-! ## Runs -/

section
variable {bm25 : Bm25 F} {w : World F} {ts : List (Caller F)}

variable [Elementary F]

theorem selecting_accepted (hk : w.db.Keyed) (hnum : w.db.QueueNumbered) (hapart : w.db.QueueApart) :
    Selecting (accepted w ts) :=
  ⟨accepted_obeys fun t _ => issues_selects t, hk, ⟨hapart, fun _ _ hans => absurd hans List.not_mem_nil⟩, hnum,
    fun _ _ hans => absurd hans List.not_mem_nil⟩

theorem selecting_play (hk : w.db.Keyed) (hnum : w.db.QueueNumbered) (hapart : w.db.QueueApart) (schedule : List ℕ) :
    Selecting ((accepted w ts).play (exec bm25) schedule) :=
  Pool.play_invariant (fun _ _ _ _ hp hn => hp.turn bm25 hn) (selecting_accepted hk hnum hapart) schedule

/-- On every database whose queued pairs are of two memories, and whatever other requests do meanwhile:
the resolver of a Tick works on the at most 50 pairs it selected before, and does to the database it
finds what it should, or fails and does nothing. -/
theorem resolver_safe (hk : w.db.Keyed) (hnum : w.db.QueueNumbered) (hapart : w.db.QueueApart) {schedule : List ℕ} {i : ℕ}
    {t : Caller F} {llm : Bool} {pairs : List ConflictPair}
    (hn : ((accepted w ts).play (exec bm25) schedule).next? i = some (t, .resolveConflicts llm pairs)) :
    (∃ is js, schedule = is ++ i :: js ∧ pairs = ((accepted w ts).play (exec bm25) is).state.db.selectedPairs) ∧
      pairs.length ≤ 50 ∧
      let now := ((accepted w ts).play (exec bm25) schedule).state
      match exec bm25 (.resolveConflicts llm pairs) now with
      | (.ok n, later) => Resolved llm pairs now.db later.db n
      | (.error _, later) => later.db = now.db := by
  have h : Selecting ((accepted w ts).play (exec bm25) schedule) := selecting_play hk hnum hapart schedule
  obtain ⟨-, hread⟩ : t.selects _ (.resolveConflicts llm pairs) := h.obeys.allowed hn
  -- the pairs are the answer to the task's own query, somewhere in the log
  obtain ⟨e, he, htask⟩ : ∃ e ∈ ((accepted w ts).play (exec bm25) schedule).log, e.task = i ∧
      (⟨e.command, e.answer⟩ : (c : Cmd F) × c.Res) = ⟨.query (.conflictPairs 50), .ok pairs⟩ := by
    obtain ⟨e, he, hsome⟩ := List.mem_filterMap.mp hread
    split at hsome
    · exact ⟨e, he, ‹_›, Option.some.inj hsome⟩
    · cases hsome
  obtain ⟨j, c, r⟩ := e
  obtain ⟨rfl, heq⟩ := htask
  obtain ⟨rfl, hr⟩ := Sigma.mk.inj heq
  obtain rfl := eq_of_heq hr
  rcases Pool.play_log he with hnothing | ⟨is, js, t', rfl, -, hanswer⟩
  · nomatch hnothing
  have hselected : pairs = ((accepted w ts).play (exec bm25) is).state.db.selectedPairs := by
    simp only [exec] at hanswer
    split at hanswer
    · cases hanswer
    · exact Except.ok.inj hanswer
  refine ⟨⟨is, js, rfl, hselected⟩, ?_, ?_⟩
  · rw [hselected, Db.selectedPairs, List.length_map]
    exact List.length_take_le _ _
  · have hans : Answered (answers ((accepted w ts).play (exec bm25) (is ++ j :: js)).log) (.query (.conflictPairs 50))
        (.ok pairs) :=
      (seen_sublist _ j).subset hread
    -- a pair that was queued is of two memories, whatever has happened to them since
    have hne := h.queue.pairs 50 pairs hans
    have hknown := fun pair hpair => (h.known 50 pairs hans pair hpair).2
    simp only [exec]
    split
    · rename_i heq
      split at heq
      · cases heq
      · cases heq
        exact resolved_of_fold llm _ hne h.keyed hknown
    · rename_i heq
      split at heq
      · cases heq
        rfl
      · cases heq

end
/-! ## Without an LLM -/

/-- What becomes of a database while the memories of these pairs are touched by heuristic resolution
only: transactions over any of the pairs, in any order and as often as may be, and steps that leave
the owners, the marks and the ranks of these memories. -/
inductive Settling (bm25 : Bm25 F) (pairs : List ConflictPair) (db₀ : Db F) : Db F → Prop
  | start : Settling bm25 pairs db₀ db₀
  | batch {w : World F} {batch : List ConflictPair} (h : Settling bm25 pairs db₀ w.db) (hsub : batch ⊆ pairs) :
      Settling bm25 pairs db₀ (exec bm25 (.resolveConflicts false batch) w).2.db
  | other {db db' : Db F} (h : Settling bm25 pairs db₀ db) (hk : db'.Keyed)
      (hsame : ∀ p ∈ pairs, ∀ id, p.mentions id → db'.standings id = db.standings id ∧ db'.rank? id = db.rank? id) :
      Settling bm25 pairs db₀ db'

/-- Ranks stay, and who is marked since was live and is marked superseded by one it was paired with
and does not outrank. -/
structure QueueSettled (pairs : List ConflictPair) (db₀ db : Db F) : Prop where
  keyed : db.Keyed
  ranks : ∀ p ∈ pairs, ∀ id, p.mentions id → db.rank? id = db₀.rank? id
  standings : ∀ p ∈ pairs, ∀ id, p.mentions id → db.standings id = db₀.standings id ∨
    ∃ user winner, db₀.standings id = some (user, .live) ∧ db.standings id = some (user, .moved (some winner)) ∧
      (∃ p ∈ pairs, p.joins winner id) ∧ db₀.Outranks winner id

section
variable {bm25 : Bm25 F} {pairs : List ConflictPair} {db₀ : Db F}

theorem ConflictPair.joins.mentions {p : ConflictPair} {a b : String} (h : p.joins a b) : p.mentions a ∧ p.mentions b := by
  rcases h with ⟨rfl, rfl⟩ | ⟨rfl, rfl⟩ <;> simp [ConflictPair.mentions]

theorem QueueSettled.batch {w : World F} (h : QueueSettled pairs db₀ w.db)
    (hne : ∀ p ∈ pairs, p.newMemoryId ≠ p.existingMemoryId) {batch : List ConflictPair} (hsub : batch ⊆ pairs) :
    QueueSettled pairs db₀ (exec bm25 (.resolveConflicts false batch) w).2.db := by
  refine exec_keeps (P := QueueSettled pairs db₀) bm25 h (fun wr a db heq => by cases heq) fun llm ps heq => ?_
  cases heq
  let start : Resolving F := ⟨w.db, 0, 0⟩
  have hstart : start.db.Keyed := h.keyed
  obtain ⟨n, hresolution, -⟩ := resolution_of_fold false w.oracle.llm (fun p hp => hne p (hsub hp)) hstart
  obtain ⟨losers, hcontest, -, hranks⟩ := hresolution.contest
  have hkeyed := (resolving_effects false w.oracle.llm batch ⟨w.db, 0, 0⟩).1.ids
  refine ⟨?_, fun p hp id hid => ?_, fun p hp id hid => ?_⟩
  · unfold Db.Keyed
    rw [hkeyed]
    exact h.keyed
  · rw [Db.rank?, hranks rfl]
    exact h.ranks p hp id hid
  · by_cases hlost : id ∈ losers
    · obtain ⟨user, winner, hlive, hmoved, ⟨q, hq, hjoins⟩, hrank⟩ := hcontest.mem hlost
      obtain ⟨a, b, ha, hb, hle⟩ := hrank rfl
      have hstart : db₀.standings id = some (user, .live) := by
        rcases h.standings p hp id hid with hsame | ⟨_, _, -, hgone, -⟩
        · rw [← hsame, hlive]
        · rw [hlive] at hgone
          cases hgone
      refine .inr ⟨user, winner, hstart, hmoved, ⟨q, hsub hq, hjoins⟩, a, b, ?_, ?_, hle⟩
      · rw [← h.ranks q (hsub hq) winner hjoins.mentions.1]
        exact ha
      · rw [← h.ranks p hp id hid]
        exact hb
    · rw [hcontest.not_mem hlost]
      exact h.standings p hp id hid

theorem Settling.settled (h : Settling bm25 pairs db₀ db) (hk : db₀.Keyed)
    (hne : ∀ p ∈ pairs, p.newMemoryId ≠ p.existingMemoryId) :
    QueueSettled pairs db₀ db := by
  induction h with
  | start => exact ⟨hk, fun _ _ _ _ => rfl, fun _ _ _ _ => .inl rfl⟩
  | batch _ hsub ih => exact ih.batch hne hsub
  | other _ hk' hsame ih =>
    refine ⟨hk', fun p hp id hid => ?_, fun p hp id hid => ?_⟩
    · rw [(hsame p hp id hid).2]
      exact ih.ranks p hp id hid
    · rw [(hsame p hp id hid).1]
      exact ih.standings p hp id hid

/-- Of the memories queued in pairs of two, one that outranks all others it is connected to is not
superseded by the heuristic, and those that are lost to one that ranks as high. -/
theorem best_survives (hk : db₀.Keyed) (hapart : db₀.QueueApart) {db : Db F}
    (h : Settling bm25 (db₀.conflictQueue.map ConflictRow.pair) db₀ db) :
    (∀ m ∈ db₀.memories, m.isSuperseded = false → (∃ c ∈ db₀.conflictQueue, c.pair.mentions m.id) →
        (∀ m' ∈ db₀.memories, m'.id ≠ m.id →
          Relation.EqvGen (fun a b => ∃ c ∈ db₀.conflictQueue, c.pair.joins a b) m.id m'.id → m'.rank < m.rank) →
        ∀ r ∈ db.memories, r.id = m.id → r.isSuperseded = false) ∧
      ∀ m ∈ db₀.memories, m.isSuperseded = false → (∃ c ∈ db₀.conflictQueue, c.pair.mentions m.id) →
        ∀ r ∈ db.memories, r.id = m.id → r.isSuperseded = true →
          ∃ m' ∈ db₀.memories, r.supersededBy = some m'.id ∧ m.rank ≤ m'.rank := by
  have hne : ∀ p ∈ db₀.conflictQueue.map ConflictRow.pair, p.newMemoryId ≠ p.existingMemoryId := by
    intro p hp
    obtain ⟨c, hc, rfl⟩ := List.mem_map.mp hp
    exact hapart c hc
  have hsettled := h.settled hk hne
  -- Who is superseded now lost to a memory of the queue that it does not outrank.
  have hlost : ∀ m ∈ db₀.memories, m.isSuperseded = false → (∃ c ∈ db₀.conflictQueue, c.pair.mentions m.id) →
      ∀ r ∈ db.memories, r.id = m.id → r.isSuperseded = true → ∃ m' ∈ db₀.memories, r.supersededBy = some m'.id ∧
        m.rank ≤ m'.rank ∧ m'.id ≠ m.id ∧ ∃ c ∈ db₀.conflictQueue, c.pair.joins m'.id m.id := by
    rintro m hm hlive ⟨c, hc, hmentions⟩ r hr hid hs
    have hstanding := standings_of_mem hsettled.keyed hr
    rw [hid] at hstanding
    rcases hsettled.standings c.pair (List.mem_map_of_mem hc) m.id hmentions with hsame | ⟨user, winner, -, hmoved,
        hjoined, hrank⟩
    · rw [hstanding, standings_of_mem hk hm] at hsame
      have hmoved := superseded_iff.mp hs
      rw [Option.some.inj hsame, unsuperseded_iff.mp hlive] at hmoved
      cases hmoved
    · obtain ⟨p, hp, hjoins⟩ := hjoined
      obtain ⟨c', hc', rfl⟩ := List.mem_map.mp hp
      obtain ⟨a, b, ha, hb, hle⟩ := hrank
      obtain ⟨m', hm', rfl, rfl⟩ : ∃ m' ∈ db₀.memories, m'.id = winner ∧ m'.rank = a := by
        obtain ⟨before, after, hsplit, -⟩ := List.lookup_eq_some_iff.mp ha
        have hmem : (winner, a) ∈ db₀.ranks := by simp [hsplit]
        obtain ⟨m', hm', heq⟩ := List.mem_map.mp hmem
        exact ⟨m', hm', congrArg Prod.fst heq, congrArg Prod.snd heq⟩
      rw [rank?_of_mem hk hm] at hb
      cases hb
      rw [hstanding] at hmoved
      have hby := superseded_iff.mp hs
      rw [Option.some.inj hmoved] at hby
      refine ⟨m', hm', (Standing.moved.inj hby).symm, hle, ?_, c', hc', hjoins⟩
      rcases hjoins with ⟨hn, he⟩ | ⟨he, hn⟩
      · rw [hn, he]
        exact hapart c' hc'
      · rw [he, hn]
        exact (hapart c' hc').symm
  constructor
  · intro m hm hlive hqueued hbest r hr hid
    rw [← Bool.not_eq_true]
    intro hs
    obtain ⟨m', hm', -, hle, hother, c, hc, hjoins⟩ := hlost m hm hlive hqueued r hr hid hs
    exact absurd hle (not_le.mpr (hbest m' hm' hother (.symm _ _ (.rel _ _ ⟨c, hc, hjoins⟩))))
  · intro m hm hlive hqueued r hr hid hs
    obtain ⟨m', hm', hby, hle, -⟩ := hlost m hm hlive hqueued r hr hid hs
    exact ⟨m', hm', hby, hle⟩

end

/-! ## Ticks without an LLM -/

def Caller.heuristic (t : Caller F) : Prop := t.isTick ∧ t.app.llm = false

def settles (h : Seen F) : Cmd F → Prop
  | .write (.tickFloor ..) | .write (.tickExpire _) => True
  | .write _ => False
  | .resolveConflicts llm pairs => llm = false ∧ Answered h (.query (.conflictPairs 50)) (.ok pairs)
  | _ => True

def Cmd.housekeeps : Cmd F → Prop
  | .write (.tickFloor ..) | .write (.tickExpire _) => True
  | .write _ | .resolveConflicts .. => False
  | _ => True

omit [Field F] [LinearOrder F] in
theorem Cmd.housekeeps.settles {c : Cmd F} (hc : c.housekeeps) (h : Seen F) : settles h c := by
  cases c with
  | resolveConflicts => exact hc.elim
  | write w =>
    cases w with
    | tickFloor | tickExpire => trivial
    | _ => exact hc.elim
  | _ => trivial

section
variable {bm25 : Bm25 F} {w : World F} {ts : List (Caller F)}

theorem issues_settles [Elementary F] {t : Caller F} (ht : t.heuristic) :
    (handleRequest t.app t.request t.user).Issues settles (fun _ _ => True) [] := by
  obtain ⟨⟨sync, hreq⟩, hllm⟩ := ht
  rw [hreq]
  have hkeep : ∀ {ε α : Type} {p : Prog (Cmd F) Cmd.Res ε α} (h : Seen F), p.Only Cmd.housekeeps →
      p.Issues settles (fun _ _ => True) h :=
    fun h hp => (hp.issues (fun h _ hc => hc.settles h) h).imp fun _ _ _ => trivial
  refine .seq (hkeep _ (only_clock trivial)) fun now h₁ _ => .seq (hkeep _ (only_mapError (only_query trivial)))
      fun hot h₂ _ => ?_
  refine .seq (hkeep _ (only_mapError (only_write trivial))) fun _ h₃ _ => ?_
  refine .seq (hkeep _ (only_mapError (only_query trivial))) fun stale h₄ _ => ?_
  refine .seq (hkeep _ (only_mapError (only_write trivial))) fun _ h₅ _ => .seq (P := fun _ _ => True) ?_ fun _ h₆ _ => ?_
  · have hresolve := issues_resolveConflicts (t := t) (h := h₅)
    have hcalm : (resolveConflicts t.app).Only fun c : Cmd F => ∀ w, c ≠ .write w := by
      refine only_bind (only_mapError (only_query (fun _ => nofun))) fun pairs => ?_
      split
      · trivial
      · exact only_mapError ⟨fun _ => nofun, fun _ => only_ofExcept _⟩
    let unwritten : Seen F → Cmd F → Prop := fun _ c => ∀ w, c ≠ .write w
    have hunwritten : (resolveConflicts t.app).Issues unwritten _ h₅ := hcalm.issues (fun _ _ hc => hc) h₅
    refine ((hresolve.and hunwritten).mono ?_).imp fun _ _ _ => trivial
    intro h c hc
    cases c with
    | write w => exact absurd rfl (hc.2 w)
    | resolveConflicts llm pairs => exact ⟨hc.1.1.trans hllm, hc.1.2⟩
    | _ => trivial
  · refine .seq (hkeep _ ?_) fun _ _ _ => trivial
    unfold consolidateAtTick
    rw [hllm]
    trivial

structure Draining (bm25 : Bm25 F) (w : World F) (p : Requests F) : Prop where
  obeys : p.Obeys fun _ => settles
  keyed : p.state.db.Keyed
  queue : p.state.db.conflictQueue ⊆ w.db.conflictQueue
  selected : ∀ limit pairs, Answered (answers p.log) (.query (.conflictPairs limit)) (.ok pairs) →
    pairs ⊆ w.db.conflictQueue.map ConflictRow.pair
  settling : Settling bm25 (w.db.conflictQueue.map ConflictRow.pair) w.db p.state.db

theorem Settling.housekeeping {pairs : List ConflictPair} {db₀ db db' : Db F} (h : Settling bm25 pairs db₀ db) {wr : Write F}
    {a : wr.Res} (hk : db.Keyed) (hwr : Cmd.housekeeps (.write wr)) (happly : wr.apply db = .ok (a, db')) :
    Settling bm25 pairs db₀ db' := by
  have hreshape : ¬ wr.reshapes := by
    cases wr <;> first | exact hwr.elim | exact not_false
  have hrows : db'.memories.map (fun r => (r.entry, r.rank)) = db.memories.map fun r => (r.entry, r.rank) := by
    refine (Write.edited hreshape happly).map_eq fun f hf r => ?_
    cases wr with
    | tickFloor => rcases hf with rfl | rfl | rfl <;> rfl
    | tickExpire =>
      obtain ⟨row, -, rfl⟩ := hf
      rfl
    | _ => exact hwr.elim
  refine .other h (Write.keyed hk happly) fun p _ id _ => ⟨?_, ?_⟩
  · refine congrFun (standings_same ?_) id
    have hfst := congrArg (List.map Prod.fst) hrows
    simpa only [List.map_map, Function.comp_def] using hfst
  · have hranks : db'.ranks = db.ranks := by
      have hsnd := congrArg (List.map fun e : (String × String × Standing String) × (F ×ₗ Int) => (e.1.1, e.2)) hrows
      unfold Db.ranks
      simpa only [List.map_map, Function.comp_def, MemoryRow.entry] using hsnd
    rw [Db.rank?, hranks, Db.rank?]

theorem Draining.turn {p : Requests F} (h : Draining bm25 w p) {i : ℕ} {t : Caller F} {c : Cmd F}
    (hn : p.next? i = some (t, c)) : Draining bm25 w (p.turn (exec bm25) i) := by
  have hd : settles (Pool.seen p.log i) c := h.obeys.allowed hn
  have hobeys : (p.turn (exec bm25) i).Obeys fun _ => settles := h.obeys.turn i
  obtain ⟨k, -, hturn⟩ := Pool.turn_some (x := exec bm25) hn
  rw [hturn] at hobeys ⊢
  have hqueue : (exec bm25 c p.state).2.db.conflictQueue ⊆ p.state.db.conflictQueue := by
    refine exec_keeps (P := fun db => db.conflictQueue ⊆ p.state.db.conflictQueue) bm25 (List.Subset.refl _) ?_ fun llm pairs _ =>
      (resolving_effects llm p.state.oracle.llm pairs ⟨p.state.db, 0, 0⟩).2.2.1
    rintro wr a db rfl happly c hc
    rcases (Write.queued_cached happly).1 c hc with hc | ⟨u, newId, hits, now, rfl, -⟩
    · exact hc
    · exact hd.elim
  refine ⟨hobeys, keyed_exec bm25 h.keyed, List.Subset.trans hqueue h.queue, fun limit pairs hans => ?_, ?_⟩
  · rcases List.mem_cons.mp hans with hans | hans
    · obtain ⟨rfl, hans⟩ := Sigma.mk.inj hans
      intro pair hpair
      obtain ⟨c, hc, rfl⟩ := mem_selected (eq_of_heq hans).symm hpair
      exact List.mem_map_of_mem (f := ConflictRow.pair) (h.queue hc)
    · exact h.selected limit pairs hans
  · cases c with
    | resolveConflicts llm pairs =>
      obtain ⟨rfl, hread⟩ := hd
      exact .batch h.settling (h.selected 50 pairs ((seen_sublist p.log i).subset hread))
    | write wr =>
      refine exec_keeps (P := Settling bm25 _ w.db) bm25 h.settling ?_ fun llm pairs heq => by cases heq
      intro wr' a db heq happly
      cases heq
      refine h.settling.housekeeping h.keyed ?_ happly
      cases wr <;> first | exact hd.elim | trivial
    | _ => exact h.settling

/-- Ticks without an LLM, however they interleave, settle the queue they find. -/
theorem ticks_settle [Elementary F] (hk : w.db.Keyed) (hts : ∀ t ∈ ts, t.heuristic) (schedule : List ℕ) :
    Settling bm25 (w.db.conflictQueue.map ConflictRow.pair) w.db ((accepted w ts).play (exec bm25) schedule).state.db := by
  have hstart : Draining bm25 w (accepted w ts) :=
    ⟨accepted_obeys fun t ht => issues_settles (hts t ht), hk, List.Subset.refl _,
      fun _ _ hans => absurd hans List.not_mem_nil, .start⟩
  exact (Pool.play_invariant (J := Draining bm25 w) (fun _ _ _ _ h hn => h.turn hn) hstart schedule).settling

end

/-! ### Two notes on tea -/

def World.holding (db : Db ℚ) : World ℚ := { World.quiet with db := db }

def twoTeas : Db ℚ :=
  { Db.empty with
    memories := [.newMinimal "mem_a" "alice" "green tea" "semantic" "fact" 0,
      .newMinimal "mem_b" "alice" "black tea" "semantic" "fact" 1]
    conflictQueue := [⟨1, "alice", "mem_b", "mem_a", 9 / 10, 1⟩]
    conflictSeq := 1 }

def Cmd.resolving? : Cmd ℚ → Option (Bool × List ConflictPair)
  | .resolveConflicts asked pairs => some (asked, pairs)
  | _ => none

theorem next_of_resolving {p : Requests ℚ} {i : ℕ} {llm : Bool} {pairs : List ConflictPair}
    (h : (p.next? i).bind (fun tc => tc.2.resolving?) = some (llm, pairs)) : ∃ t, p.next? i =
      some (t, .resolveConflicts llm pairs) := by
  obtain ⟨⟨t, c⟩, hn, hc⟩ := Option.bind_eq_some_iff.mp h
  cases c with
  | resolveConflicts =>
    cases hc
    exact ⟨t, hn⟩
  | _ => nomatch hc

theorem resolver_safe_twoTeas :
    let pairs : List ConflictPair := [⟨1, "alice", "mem_b", "mem_a"⟩]
    let now := ((accepted (World.holding twoTeas) [tick]).play (exec Bm25.none) (List.replicate 6 0)).state
    match exec Bm25.none (.resolveConflicts false pairs) now with
    | (.ok n, later) => Resolved false pairs now.db later.db n
    | (.error _, later) => later.db = now.db := by
  have hk : (World.holding twoTeas).db.Keyed := by decide
  have hnum : (World.holding twoTeas).db.QueueNumbered := by decide +kernel
  have hapart : (World.holding twoTeas).db.QueueApart := by decide +kernel
  obtain ⟨t, hn⟩ : ∃ t, ((accepted (World.holding twoTeas) [tick]).play (exec Bm25.none) (List.replicate 6 0)).next? 0 =
      some (t, .resolveConflicts false [⟨1, "alice", "mem_b", "mem_a"⟩]) := next_of_resolving (by decide +kernel)
  exact (resolver_safe hk hnum hapart hn).2.2

def lonelyTea : Db ℚ :=
  { Db.empty with
    memories := [.newMinimal "mem_a" "alice" "green tea" "semantic" "fact" 0]
    conflictQueue := [⟨1, "alice", "mem_a", "mem_a", 1, 0⟩]
    conflictSeq := 1 }

/-- It is superseded by itself. -/
theorem lonely_tea_superseded : ¬ ∀ (w : World ℚ) (ts : List (Caller ℚ)) (schedule : List ℕ) (i : ℕ) (t : Caller ℚ)
    (llm : Bool) (pairs : List ConflictPair), w.db.Keyed → w.db.QueueNumbered →
    ((accepted w ts).play (exec Bm25.none) schedule).next? i = some (t, .resolveConflicts llm pairs) →
      let now := ((accepted w ts).play (exec Bm25.none) schedule).state
      match exec Bm25.none (.resolveConflicts llm pairs) now with
      | (.ok n, later) => Resolved llm pairs now.db later.db n
      | (.error _, later) => later.db = now.db := by
  intro h
  obtain ⟨t, hn⟩ : ∃ t, ((accepted (World.holding lonelyTea) [tick]).play (exec Bm25.none) (List.replicate 6 0)).next? 0 =
      some (t, .resolveConflicts false [⟨1, "alice", "mem_a", "mem_a"⟩]) := next_of_resolving (by decide +kernel)
  have hres := h (World.holding lonelyTea) [tick] (List.replicate 6 0) 0 t false _ (by decide) (by decide +kernel) hn
  have hok : (exec Bm25.none (.resolveConflicts false [⟨1, "alice", "mem_a", "mem_a"⟩])
      ((accepted (World.holding lonelyTea) [tick]).play (exec Bm25.none) (List.replicate 6 0)).state).1 =
        .ok 1 := by decide +kernel
  have hlive : Db.Live ((accepted (World.holding lonelyTea) [tick]).play (exec Bm25.none)
      (List.replicate 6 0)).state.db "mem_a" := by
    decide +kernel
  have hdead : ∀ r ∈ (exec Bm25.none (.resolveConflicts false [⟨1, "alice", "mem_a", "mem_a"⟩])
      ((accepted (World.holding lonelyTea) [tick]).play (exec Bm25.none) (List.replicate 6 0)).state).2.db.memories,
      r.isSuperseded = true := by decide +kernel
  dsimp only at hres
  split at hres
  · rename_i n later heq
    rw [heq] at hdead
    obtain ⟨b, -, r, hr, -, hs⟩ := hres.survives "mem_a" hlive
    rw [hdead r hr] at hs
    cases hs
  · rename_i e later heq
    rw [heq] at hok
    cases hok

theorem best_survives_twoTeas :
    let settled := (exec Bm25.none (.resolveConflicts false [⟨1, "alice", "mem_b", "mem_a"⟩]) (World.holding twoTeas)).2.db
    (∀ m ∈ twoTeas.memories, m.isSuperseded = false → (∃ c ∈ twoTeas.conflictQueue, c.pair.mentions m.id) →
        (∀ m' ∈ twoTeas.memories, m'.id ≠ m.id →
          Relation.EqvGen (fun a b => ∃ c ∈ twoTeas.conflictQueue, c.pair.joins a b) m.id m'.id → m'.rank < m.rank) →
        ∀ r ∈ settled.memories, r.id = m.id → r.isSuperseded = false) ∧
      ∀ m ∈ twoTeas.memories, m.isSuperseded = false → (∃ c ∈ twoTeas.conflictQueue, c.pair.mentions m.id) →
        ∀ r ∈ settled.memories, r.id = m.id → r.isSuperseded = true →
          ∃ m' ∈ twoTeas.memories, r.supersededBy = some m'.id ∧ m.rank ≤ m'.rank := by
  have hsub : [⟨1, "alice", "mem_b", "mem_a"⟩] ⊆ twoTeas.conflictQueue.map ConflictRow.pair := List.Subset.refl _
  exact best_survives (by decide) (by decide +kernel) (.batch (w := World.holding twoTeas) .start hsub)

theorem lonely_best_superseded : ¬ ∀ (bm25 : Bm25 ℚ) (db₀ db : Db ℚ), db₀.Keyed →
    Settling bm25 (db₀.conflictQueue.map ConflictRow.pair) db₀ db →
    (∀ m ∈ db₀.memories, m.isSuperseded = false → (∃ c ∈ db₀.conflictQueue, c.pair.mentions m.id) →
        (∀ m' ∈ db₀.memories, m'.id ≠ m.id →
          Relation.EqvGen (fun a b => ∃ c ∈ db₀.conflictQueue, c.pair.joins a b) m.id m'.id → m'.rank < m.rank) →
        ∀ r ∈ db.memories, r.id = m.id → r.isSuperseded = false) ∧
      ∀ m ∈ db₀.memories, m.isSuperseded = false → (∃ c ∈ db₀.conflictQueue, c.pair.mentions m.id) →
        ∀ r ∈ db.memories, r.id = m.id → r.isSuperseded = true →
          ∃ m' ∈ db₀.memories, r.supersededBy = some m'.id ∧ m.rank ≤ m'.rank := by
  intro h
  have hsub : [⟨1, "alice", "mem_a", "mem_a"⟩] ⊆ lonelyTea.conflictQueue.map ConflictRow.pair := List.Subset.refl _
  have hboth := h Bm25.none lonelyTea _ (by decide) (.batch (w := World.holding lonelyTea) .start hsub)
  have halone : ∀ m ∈ lonelyTea.memories, ∀ m' ∈ lonelyTea.memories, m'.id ≠ m.id → False := by decide
  have hdead : ∃ r ∈ (exec Bm25.none (.resolveConflicts false [⟨1, "alice", "mem_a", "mem_a"⟩])
      (World.holding lonelyTea)).2.db.memories,
      r.id = "mem_a" ∧ r.isSuperseded = true := by decide +kernel
  obtain ⟨r, hr, hid, hs⟩ := hdead
  have hm : MemoryRow.newMinimal "mem_a" "alice" "green tea" "semantic" "fact" 0 ∈ lonelyTea.memories := List.mem_cons_self
  have hlive := hboth.1 _ hm rfl ⟨_, List.mem_cons_self, by decide⟩ (fun m' hm' hne => (halone _ hm m' hm' hne).elim) r hr hid
  rw [hs] at hlive
  cases hlive

end CognitiveMemory
