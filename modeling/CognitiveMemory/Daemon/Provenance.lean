import CognitiveMemory.Daemon.Pooled

/-! Where the rows, boosts and clusters that a request writes come from: what it has read and
drawn before. -/

namespace CognitiveMemory
open Prog
variable {F : Type}

/-! ## What a task has seen -/

abbrev Seen (F : Type) := History (Cmd F) Cmd.Res

def Answered (h : Seen F) (c : Cmd F) (r : c.Res) : Prop := (⟨c, r⟩ : (c : Cmd F) × c.Res) ∈ h

/-- The answers that a store with unique ids and unique ULIDs gives: a user's rows have different
ids, the categories are the ones asked for, an id is drawn after all rows read so far. -/
def Truthful (older : Seen F) : (c : Cmd F) × c.Res → Prop
  | ⟨.query (.hotEmbedded _), .ok rows⟩ => (rows.map MemoryRow.id).Nodup
  | ⟨.order keys, l⟩ => l.Perm keys
  | ⟨.ulid _, raw⟩ => ∀ user rows, Answered older (.query (.hotEmbedded user)) (.ok rows) → ∀ r ∈ rows, r.id ≠ "mem_" ++ raw
  | _ => True

def Genuine : Seen F → Prop
  | [] => True
  | e :: h => Truthful h e ∧ Genuine h

theorem Truthful.anti {older older' : Seen F} {e : (c : Cmd F) × c.Res} (h : Truthful older e) (hsub : older' ⊆ older) :
    Truthful older' e := by
  unfold Truthful at h ⊢
  split at h
  · exact h
  · exact h
  · exact fun user rows hread => h user rows (hsub hread)
  · trivial

theorem Genuine.sublist {h h' : Seen F} (hg : Genuine h) (hsub : h'.Sublist h) : Genuine h' := by
  induction hsub with
  | slnil => trivial
  | cons e _ ih => exact ih hg.2
  | cons_cons e hsub ih => exact ⟨hg.1.anti hsub.subset, ih hg.2⟩

def Working (user : String) (rows : List (MemoryRow F)) (marked : List String) (h : Seen F) : Prop :=
  ∃ newer older, h = newer ++ ⟨.query (.hotEmbedded user), .ok rows⟩ :: older ∧ ∀ e ∈ newer,
    (∀ u, e.1 ≠ .query (.hotEmbedded u)) ∧
      ∀ u summaryId ids now, e.1 = .write (.supersedeCluster u summaryId ids now) → u = user ∧ ids ⊆ marked

def Cmd.plain : Cmd F → Prop
  | .write (.insertMemory _) | .write (.applyDirectBoost ..) | .write (.supersedeCluster ..) | .resolveConflicts ..
  | .query (.hotEmbedded _) => False
  | _ => True

def Caller.derives [Field F] [LinearOrder F] (t : Caller F) (h : Seen F) : Cmd F → Prop
  | .write (.insertMemory row) => (∃ owner raw, Answered h (.ulid owner) raw ∧ row.id = "mem_" ++ raw) ∧
      ((∃ args id vector now, row = storedRow t.app args id vector now) ∨
        ∃ user rows marked group id text vector now, Working user rows marked h ∧ group.Sublist rows ∧
          row = summaryRow t.app id user text vector now group)
  | .write (.applyDirectBoost user boosts now _) => ∃ ids rows retrieved,
      Answered h (.query (.getManyForUser user ids)) (.ok rows) ∧ boosts = (rows.filter fun r => !r.isStub).map fun r =>
        (r.id, boostedStability t.app.lifecycle (sourceOf retrieved r.id) now r)
  | .write (.supersedeCluster user summaryId ids now) => ∃ rows marked group text vector rest,
      h = ⟨.write (.insertMemory (summaryRow t.app summaryId user text vector now group)), .ok ()⟩ :: rest ∧
        Working user rows marked rest ∧ group.Sublist rows ∧ ids = group.map MemoryRow.id ∧
        (Genuine h → summaryId ∉ ids ∧ ∀ id ∈ ids, id ∉ marked)
  | .resolveConflicts _ pairs => ∃ limit, Answered h (.query (.conflictPairs limit)) (.ok pairs)
  | _ => True

theorem Cmd.plain.derives [Field F] [LinearOrder F] {t : Caller F} {h : Seen F} {c : Cmd F} (hc : c.plain) :
    t.derives h c := by
  cases c with
  | write w =>
    cases w with
    | insertMemory | applyDirectBoost | supersedeCluster => exact hc.elim
    | _ => trivial
  | resolveConflicts => exact hc.elim
  | _ => trivial

theorem Cmd.quiet.plain {c : Cmd F} (h : c.quiet) : c.plain := by
  cases c with
  | write w => cases w <;> trivial
  | query q => cases q <;> trivial
  | resolveConflicts => exact h
  | _ => trivial

def Grown (h h' : Seen F) : Prop := ∃ more, h' = more ++ h ∧ ∀ e ∈ more, e.1.plain

theorem Grown.trans {h h' h'' : Seen F} (hg : Grown h h') (hg' : Grown h' h'') : Grown h h'' := by
  obtain ⟨more, rfl, hmore⟩ := hg
  obtain ⟨more', rfl, hmore'⟩ := hg'
  refine ⟨more' ++ more, by simp, fun e he => ?_⟩
  rcases List.mem_append.mp he with he | he
  · exact hmore' e he
  · exact hmore e he

theorem Grown.cons {h : Seen F} {c : Cmd F} (hc : c.plain) (r : c.Res) : Grown h (⟨c, r⟩ :: h) :=
  ⟨[⟨c, r⟩], rfl, by simpa using hc⟩

theorem Grown.subset {h h' : Seen F} (hg : Grown h h') : h ⊆ h' := by
  obtain ⟨more, rfl, -⟩ := hg
  exact List.subset_append_right _ _

theorem Working.grown {user : String} {rows : List (MemoryRow F)} {marked : List String} {h h' : Seen F}
    (hw : Working user rows marked h) (hg : Grown h h') : Working user rows marked h' := by
  obtain ⟨newer, older, rfl, hnewer⟩ := hw
  obtain ⟨more, rfl, hmore⟩ := hg
  refine ⟨more ++ newer, older, by simp, fun e he => ?_⟩
  rcases List.mem_append.mp he with he | he
  · have hplain := hmore e he
    constructor
    · intro u heq
      rw [heq] at hplain
      exact hplain
    · intro u summaryId ids now heq
      rw [heq] at hplain
      exact hplain.elim
  · exact hnewer e he

theorem Working.answered {user : String} {rows : List (MemoryRow F)} {marked : List String} {h : Seen F}
    (hw : Working user rows marked h) : Answered h (.query (.hotEmbedded user)) (.ok rows) := by
  obtain ⟨newer, older, rfl, -⟩ := hw
  exact List.mem_append_right _ List.mem_cons_self

/-! ## Plain parts of requests -/

variable [Field F] [LinearOrder F]

section
variable {t : Caller F}

theorem issues_plain {ε α : Type} {p : Prog (Cmd F) Cmd.Res ε α} {h : Seen F} (hp : p.Only Cmd.plain) :
    p.Issues t.derives (fun _ h' => Grown h h') h :=
  hp.issues (fun _ _ hc => hc.derives) h

end

section
variable {t : Caller F}

theorem only_search' [Elementary F] {cfg : LifecycleConfig F} {userId : String} {queryVec : List F} {o : SearchOptions F} :
    (search cfg userId queryVec o).Only Cmd.plain := only_search.imp fun _ h => h.quiet.plain

omit [Field F] [LinearOrder F] in
theorem only_embed' {app : AppState F} {text : String} : (embed app text).Only Cmd.plain :=
  only_embed.imp fun _ => Cmd.quiet.plain

theorem only_get [Elementary F] {app : AppState F} {userId id user : String} :
    (handleMemoryGet app userId id user).Only Cmd.plain := by
  refine only_bind only_require fun _ => only_bind (only_mapError (only_query trivial)) fun row? => ?_
  cases row? with
  | none => trivial
  | some row =>
    dsimp only
    split
    · exact only_bind (only_mapError (only_unlessEmpty (only_write trivial))) fun _ =>
        only_bind (only_bind (only_clock trivial) fun _ => trivial) fun _ => trivial
    · exact only_bind (only_bind (only_clock trivial) fun _ => trivial) fun _ => trivial

omit [Field F] [LinearOrder F] in
theorem only_diagnostics {app : AppState F} {req : DiagnosticsRequest} {user : String} :
    (handleDiagnosticsRequest app req user : HandlerM F _).Only Cmd.plain := by
  cases req with
  | status => exact only_bind (only_mapError (only_query trivial)) fun _ => trivial
  | doctor => exact ⟨trivial, fun _ => ⟨trivial, fun _ => trivial⟩⟩
  | recentTraces => trivial
  | shutdown => trivial
  | mintBridgeToken =>
    exact ⟨trivial, fun _ => ⟨trivial, fun _ => ⟨trivial, fun _ => ⟨trivial, fun answer => by cases answer <;> trivial⟩⟩⟩⟩
  | validateBridgeToken =>
    refine only_bind (only_mapError (only_query trivial)) fun row? => ?_
    cases row? with
    | none => trivial
    | some row =>
      refine only_bind (only_clock trivial) fun now => ?_
      split
      · trivial
      · split <;> trivial
  | counts => exact only_bind only_require fun _ => only_bind (only_mapError (only_query trivial)) fun _ => trivial

/-! ## Stores -/

theorem issues_freshMemoryId {owner : String} {h : Seen F} : (freshMemoryId owner : HandlerM F String).Issues t.derives
    (fun id h' => ∃ raw, h' = ⟨.ulid owner, raw⟩ :: h ∧ id = "mem_" ++ raw) h := ⟨trivial, fun raw => ⟨raw, rfl, rfl⟩⟩

theorem issues_write {w : Write F} {h : Seen F} (hw : t.derives h (.write w)) :
    (sqlx (write w)).Issues t.derives (fun a h' => h' = ⟨.write w, .ok a⟩ :: h) h := by
  refine .mapError ⟨hw, fun answer => ?_⟩
  cases answer with
  | error e => trivial
  | ok a => rfl

theorem issues_insertStored {h : Seen F} {owner raw : String} (hraw : Answered h (.ulid owner) raw) {row : MemoryRow F}
    (hid : row.id = "mem_" ++ raw) (hrow : ∃ args id vector now, row = storedRow t.app args id vector now) :
    (sqlx (write (.insertMemory row))).Issues t.derives (fun _ _ => True) h :=
  (issues_write (w := .insertMemory row) ⟨⟨owner, raw, hraw, hid⟩, .inl hrow⟩).imp fun _ _ _ => trivial

theorem storedRow_id {app : AppState F} {args : StoreMemoryArgs F} {id : String} {vector : List F} {now : Int} :
    (storedRow app args id vector now).id = id := by
  unfold storedRow
  dsimp only
  split <;> rfl

theorem issues_memoryStore [Elementary F] {args : StoreMemoryArgs F} {h : Seen F} :
    (handleMemoryStore t.app args t.user).Issues t.derives (fun _ _ => True) h := by
  refine .seq (issues_plain only_require) fun _ h₁ _ => .seq (issues_plain only_embed') fun vector h₂ _ => ?_
  refine .seq issues_freshMemoryId fun id h₃ hid => .seq (issues_plain (only_clock trivial)) fun now h₄ hg => ?_
  obtain ⟨raw, rfl, rfl⟩ := hid
  refine .seq (issues_insertStored (hg.subset List.mem_cons_self) storedRow_id ⟨_, _, _, _, rfl⟩) fun _ h₅ _ => ?_
  refine .seq (issues_plain ?_) fun _ _ _ => trivial
  exact only_bind (only_mapError only_search') fun _ => only_mapError (only_write trivial)

theorem issues_storeEntries {userId : String} {now : Int} (entries : List BatchMemoryEntry) {h : Seen F} :
    (storeEntries t.app userId now entries).Issues t.derives (fun _ _ => True) h := by
  induction entries generalizing h with
  | nil => trivial
  | cons entry entries ih =>
    refine .seq (issues_plain only_embed') fun vector h₁ _ => .seq issues_freshMemoryId fun id h₂ hid => ?_
    obtain ⟨raw, rfl, rfl⟩ := hid
    refine .seq (issues_insertStored List.mem_cons_self rfl ?_) fun _ _ _ => .seq ih fun _ _ _ => trivial
    exact ⟨⟨userId, entry.content, entry.category, entry.memoryType, entry.metadata, none⟩, "mem_" ++ raw, vector, now, rfl⟩

theorem issues_storeBatch {args : StoreBatchArgs F} {h : Seen F} :
    (handleMemoryStoreBatch t.app args t.user).Issues t.derives (fun _ _ => True) h := by
  refine .seq (issues_plain only_require) fun _ h₁ _ => ?_
  split
  · trivial
  · refine .seq (issues_plain (only_clock trivial)) fun now h₂ _ => .seq (issues_storeEntries _) fun ids h₃ _ => ?_
    exact .seq (issues_plain (only_linkAll (fun _ _ => only_createOrStrengthen trivial fun _ => trivial) _)) fun _ _ _ => trivial

/-! ## Searches -/

theorem issues_boosted {user : String} {retrieved : List (String × ResultSource)} {now : Int} {h : Seen F} :
    (applyPostRetrievalStrengthening t.app user retrieved now).Issues t.derives (fun _ _ => True) h := by
  let P : List (MemoryRow F) → Seen F → Prop := fun rows h' =>
    rows = [] ∨ ∃ ids, Answered h' (.query (.getManyForUser user ids)) (.ok rows)
  have hread : (getManyForUser user (retrieved.map Prod.fst)).Issues t.derives P h := by
    unfold getManyForUser
    split
    · exact .inl rfl
    · refine ⟨trivial, fun answer => ?_⟩
      cases answer with
      | error e => trivial
      | ok rows => exact .inr ⟨_, List.mem_cons_self⟩
  refine .seq (.mapError hread) fun rows h₁ hrows => ?_
  refine .seq (P := fun _ h' => Grown h₁ h') ⟨trivial, fun u => .cons (c := .ulid user) trivial u⟩ fun u h₂ hg => ?_
  refine .seq (P := fun _ _ => True) (.mapError ?_) fun _ h₃ _ =>
    .seq (issues_plain (only_mapError (only_unlessEmpty (only_write trivial)))) fun _ _ _ => trivial
  unfold applyDirectBoost unlessEmpty
  split
  · trivial
  rename_i hne
  refine ⟨?_, fun answer => by cases answer <;> trivial⟩
  rcases hrows with rfl | ⟨ids, hrows⟩
  · exact absurd rfl hne
  · exact ⟨ids, rows, retrieved, hg.subset hrows, rfl⟩

variable [Elementary F]

/-- A search issues quiet commands and two writes of its own around the strengthening. -/
theorem issues_searching {app : AppState F} {user : String} {args : SearchMemoryArgs} {allows : Seen F → Cmd F → Prop}
    {P : Cmd F → Prop} (hP : ∀ h c, P c → allows h c) (hquiet : ∀ c : Cmd F, c.quiet → P c) (hclock : P .clock)
    (hrestore : ∀ ids, P (.write (.migrateToHotMany args.userId ids)))
    (hpairs : ∀ pairs amount now kind, P (.write (.strengthenPairs pairs amount now kind)))
    (hstrengthen : ∀ retrieved now h,
      (applyPostRetrievalStrengthening app args.userId retrieved now).Issues allows (fun _ _ => True) h) (h : Seen F) :
    (handleMemorySearch app args user).Issues allows (fun _ _ => True) h := by
  have hother : ∀ {ε α : Type} {p : Prog (Cmd F) Cmd.Res ε α} (h : Seen F), p.Only P → p.Issues allows (fun _ _ => True) h :=
    fun h hp => (hp.issues hP h).imp fun _ _ _ => trivial
  have hwarm : ∀ ids, (restoreCold args.userId ids : HandlerM F Unit).Only P := fun ids =>
    only_bind (only_mapError (only_getManyForUser (hquiet _ trivial))) fun _ =>
      only_bind (only_mapError (only_unlessEmpty (only_write (hrestore _)))) fun _ => trivial
  refine .seq (hother h only_require) fun _ h₁ _ => .seq (hother h₁ (only_embed.imp fun _ h => hquiet _ h)) fun vector h₂ _ => ?_
  refine .seq (hother h₂ (only_clock hclock)) fun now h₃ _ => ?_
  refine .seq (hother h₃ (only_mapError (only_search.imp fun _ h => hquiet _ h.quiet))) fun results h₄ _ => ?_
  refine .seq (hother h₄ (only_mapError (only_findBridges.imp fun _ h => hquiet _ h.quiet))) fun bridges h₅ _ => ?_
  refine .seq (hother h₅ (only_whenever (hwarm _))) fun _ h₆ _ => .seq (P := fun _ _ => True) ?_ fun _ _ _ => trivial
  unfold whenever
  split
  · refine .seq (hstrengthen _ _ h₆) fun _ h₇ _ => .seq (hother h₇ ?_) fun _ _ _ => trivial
    exact only_mapError (only_unlessEmpty (only_write (hpairs _ _ _ _)))
  · trivial

theorem issues_memorySearch {args : SearchMemoryArgs} {h : Seen F} :
    (handleMemorySearch t.app args t.user).Issues t.derives (fun _ _ => True) h :=
  issues_searching (fun _ _ hc => hc.derives) (fun _ => Cmd.quiet.plain) trivial (fun _ => trivial) (fun _ _ _ _ => trivial)
    (fun _ _ _ => issues_boosted) h

/-! ## The tick -/

/-- The rows a group takes up are free and close to its head; none once it is full. -/
theorem growGroup_picks (headVec : List F) (used : List String) (rest group : List (MemoryRow F)) :
    ∃ picks, growGroup headVec used rest group = group ++ picks ∧ picks.Sublist rest ∧
      (∀ m ∈ picks, m.id ∉ used ∧ 7 / 10 ≤ cosineSimilarityF32 headVec (decodeEmbedding m)) ∧
      (group.length < consolidationGroupSize → group.length + picks.length ≤ consolidationGroupSize) := by
  induction rest generalizing group with
  | nil => exact ⟨[], by simp [growGroup], List.Sublist.refl _, by simp, Nat.le_of_lt⟩
  | cons cand rest ih =>
    rw [growGroup]
    split
    · obtain ⟨picks, heq, hsub, hpicked, hsize⟩ := ih group
      exact ⟨picks, heq, hsub.cons cand, hpicked, hsize⟩
    · rename_i hcand
      have hpick : cand.id ∉ used ∧ 7 / 10 ≤ cosineSimilarityF32 headVec (decodeEmbedding cand) := by
        simp only [Bool.or_eq_true, not_or] at hcand
        exact ⟨by simpa using hcand.1.1, by simpa using hcand.2⟩
      split
      · exact ⟨[cand], rfl, (List.nil_sublist _).cons_cons cand, by simpa using hpick, fun hlt => hlt⟩
      · rename_i hroom
        obtain ⟨picks, heq, hsub, hpicked, hsize⟩ := ih (group ++ [cand])
        refine ⟨cand :: picks, by rw [heq]; simp, hsub.cons_cons cand, List.forall_mem_cons.mpr ⟨hpick, hpicked⟩, fun _ => ?_⟩
        rw [List.length_append] at hsize
        have hle := hsize (not_le.mp hroom)
        simp only [List.length_cons, List.length_nil] at hle ⊢
        omega

omit [Elementary F] in
theorem issues_compressCluster {user : String} {rows group : List (MemoryRow F)} {marked : List String} {now : Int}
    {h : Seen F}
    (hw : Working user rows marked h) (hsub : group.Sublist rows) (hfree : Genuine h → ∀ m ∈ group, m.id ∉ marked) :
    (compressCluster t.app user group now).Issues t.derives
      (fun _ h' => h.Sublist h' ∧ Working user rows (marked ++ group.map MemoryRow.id) h') h := by
  refine .seq (P := fun _ h' => Grown h h') ⟨trivial, fun answer => .cons (c := .llm _ _) trivial answer⟩ fun answer h₁ hg₁ => ?_
  refine .seq (issues_plain (only_mapError (only_ofExcept _))) fun text h₂ hg₂ => ?_
  refine .seq (issues_plain only_embed') fun vector h₃ hg₃ => .seq issues_freshMemoryId fun id h₄ hid => ?_
  obtain ⟨raw, rfl, rfl⟩ := hid
  have hg := (hg₁.trans hg₂).trans hg₃
  have hw₄ : Working user rows marked (⟨.ulid user, raw⟩ :: h₃) := hw.grown (hg.trans (.cons (c := .ulid user) trivial raw))
  refine .seq (issues_write (w := .insertMemory (summaryRow t.app ("mem_" ++ raw) user text vector now group)) ?_)
    fun _ h₅ h₅eq => ?_
  · exact ⟨⟨user, raw, List.mem_cons_self, rfl⟩, .inr ⟨user, rows, marked, group, _, text, vector, now, hw₄, hsub, rfl⟩⟩
  subst h₅eq
  refine .seq (issues_write (w := .supersedeCluster user ("mem_" ++ raw) (group.map MemoryRow.id) now) ?_) fun _ h₆ h₆eq => ?_
  · refine ⟨rows, marked, group, text, vector, _, rfl, hw₄, hsub, rfl, fun hgen => ⟨fun hmem => ?_, fun x hx => ?_⟩⟩
    · obtain ⟨m, hm, hmid⟩ := List.mem_map.mp hmem
      exact hgen.2.1 user rows (hw.grown hg).answered m (hsub.subset hm) hmid
    · obtain ⟨m, hm, rfl⟩ := List.mem_map.mp hx
      obtain ⟨more, rfl, -⟩ := hg
      exact hfree (hgen.2.2.sublist (List.sublist_append_right _ _)) m hm
  · subst h₆eq
    obtain ⟨more, rfl, -⟩ := hg
    obtain ⟨newer, older, heq, hnewer⟩ := hw₄
    constructor
    · refine List.Sublist.cons _ (List.Sublist.cons _ (List.Sublist.cons _ ?_))
      exact List.sublist_append_right _ _
    · refine ⟨⟨.write (.supersedeCluster user ("mem_" ++ raw) (group.map MemoryRow.id) now), .ok ()⟩ ::
        ⟨.write (.insertMemory (summaryRow t.app ("mem_" ++ raw) user text vector now group)), .ok ()⟩ :: newer, older, ?_, ?_⟩
      · rw [heq]
        rfl
      · refine List.forall_mem_cons.mpr ⟨⟨nofun, ?_⟩, List.forall_mem_cons.mpr ⟨⟨nofun, nofun⟩, ?_⟩⟩
        · intro u summaryId ids now' heq'
          cases heq'
          exact ⟨rfl, List.subset_append_right _ _⟩
        · exact fun e he => ⟨(hnewer e he).1, fun u summaryId ids now' heq' =>
            ⟨((hnewer e he).2 u summaryId ids now' heq').1,
              List.Subset.trans ((hnewer e he).2 u summaryId ids now' heq').2 (List.subset_append_left _ _)⟩⟩

/-- A category whose rows have been marked only as far as `used` tells. -/
theorem issues_consolidateCategory {user : String} {rows : List (MemoryRow F)} {now : Int} (mems : List (MemoryRow F))
    {used marked : List String} {created : ℕ} {h : Seen F} (hw : Working user rows marked h) (hsub : mems.Sublist rows)
    (hused : Genuine h → ∀ m ∈ mems, m.id ∈ marked → m.id ∈ used) :
    (consolidateCategory t.app user now mems used created).Issues t.derives
      (fun _ h' => h.Sublist h' ∧ ∃ marked', Working user rows marked' h' ∧
        ∀ id ∈ marked', id ∈ marked ∨ ∃ m ∈ mems, m.id = id) h := by
  induction mems generalizing used marked created h with
  | nil => exact ⟨List.Sublist.refl _, marked, hw, fun id hid => .inl hid⟩
  | cons head rest ih =>
    have hrest : rest.Sublist rows := (List.sublist_cons_self head rest).trans hsub
    -- a head that is used or has no group leaves the rest to the induction
    have hskip : (consolidateCategory t.app user now rest used created).Issues t.derives
        (fun _ h' => h.Sublist h' ∧ ∃ marked', Working user rows marked' h' ∧
          ∀ id ∈ marked', id ∈ marked ∨ ∃ m ∈ head :: rest, m.id = id) h := by
      refine (ih hw hrest fun hg m hm => hused hg m (List.mem_cons_of_mem _ hm)).imp ?_
      rintro a h' ⟨hgrow, marked', hw', hfrom⟩
      refine ⟨hgrow, marked', hw', fun id hid => (hfrom id hid).imp_right ?_⟩
      rintro ⟨m, hm, rfl⟩
      exact ⟨m, List.mem_cons_of_mem _ hm, rfl⟩
    rw [consolidateCategory]
    split
    · exact ⟨List.Sublist.refl _, marked, hw, fun id hid => .inl hid⟩
    · split
      · exact hskip
      · rename_i hhead
        dsimp only
        split
        · obtain ⟨picks, heq, hpicks, hnew, -⟩ := growGroup_picks (decodeEmbedding head) used rest [head]
          rw [heq]
          have hgroup : ([head] ++ picks).Sublist (head :: rest) := hpicks.cons_cons head
          have hfresh : ∀ m ∈ [head] ++ picks, m.id ∉ used := by
            simp only [Bool.or_eq_true, not_or, Bool.not_eq_true] at hhead
            refine List.forall_mem_cons.mpr ⟨by simpa using hhead.1, fun m hm => (hnew m hm).1⟩
          refine .seq (issues_compressCluster hw (hgroup.trans hsub) fun hg m hm hmarked =>
            hfresh m hm (hused hg m (hgroup.subset hm) hmarked)) fun _ h₁ hdone => ?_
          obtain ⟨hgrow, hw₁⟩ := hdone
          refine (ih hw₁ hrest fun hg m hm hmarked => ?_).imp ?_
          · rcases List.mem_append.mp hmarked with hmarked | hmarked
            · exact List.mem_append_left _ (hused (hg.sublist hgrow) m (List.mem_cons_of_mem _ hm) hmarked)
            · exact List.mem_append_right _ hmarked
          · rintro a h' ⟨hgrow', marked', hw', hfrom⟩
            refine ⟨hgrow.trans hgrow', marked', hw', fun id hid => ?_⟩
            rcases hfrom id hid with hid | ⟨m, hm, rfl⟩
            · rcases List.mem_append.mp hid with hid | hid
              · exact .inl hid
              · obtain ⟨m, hm, rfl⟩ := List.mem_map.mp hid
                exact .inr ⟨m, hgroup.subset hm, rfl⟩
            · exact .inr ⟨m, List.mem_cons_of_mem _ hm, rfl⟩
        · exact hskip

theorem issues_consolidateCategories {user : String} {rows fading : List (MemoryRow F)} {now : Int}
    (categories : List String)
    {marked : List String} {created : ℕ} {h : Seen F} (hw : Working user rows marked h) (hsub : fading.Sublist rows)
    (hnodup : Genuine h → categories.Nodup ∧ (rows.map MemoryRow.id).Nodup)
    (hfree : Genuine h → ∀ m ∈ fading, m.category ∈ categories → m.id ∉ marked) :
    (consolidateCategories t.app user now fading categories created).Issues t.derives (fun _ _ => True) h := by
  induction categories generalizing marked created h with
  | nil => trivial
  | cons category categories ih =>
    have hmems : (fading.filter (·.category == category)).Sublist rows := List.filter_sublist.trans hsub
    have hone : (consolidateMembers t.app user now (fading.filter (·.category == category)) created).Issues t.derives
        (fun _ h' => h.Sublist h' ∧ ∃ marked', Working user rows marked' h' ∧
          ∀ id ∈ marked', id ∈ marked ∨ ∃ m ∈ fading.filter (·.category == category), m.id = id) h := by
      unfold consolidateMembers
      split
      · exact ⟨List.Sublist.refl _, marked, hw, fun id hid => .inl hid⟩
      · refine issues_consolidateCategory _ hw hmems fun hg m hm hmarked => ?_
        obtain ⟨hmem, hcat⟩ := List.mem_filter.mp hm
        have hcategory : m.category = category := by simpa using hcat
        exact absurd hmarked (hfree hg m hmem (hcategory ▸ List.mem_cons_self))
    refine .seq hone fun created' h' hdone => ?_
    obtain ⟨hgrow, marked', hw', hfrom⟩ := hdone
    refine ih hw' (fun hg => ?_) fun hg m hm hcat hmarked => ?_
    · obtain ⟨hcats, hids⟩ := hnodup (hg.sublist hgrow)
      exact ⟨(List.nodup_cons.mp hcats).2, hids⟩
    · obtain ⟨hcats, hids⟩ := hnodup (hg.sublist hgrow)
      rcases hfrom _ hmarked with hmarked | ⟨m', hm', hid⟩
      · exact hfree (hg.sublist hgrow) m hm (List.mem_cons_of_mem _ hcat) hmarked
      · obtain ⟨hmem', hcat'⟩ := List.mem_filter.mp hm'
        obtain rfl : m' = m := List.inj_on_of_nodup_map hids (hsub.subset hmem') (hsub.subset hm) hid
        have hcategory : m'.category = category := by simpa using hcat'
        exact (List.nodup_cons.mp hcats).1 (hcategory ▸ hcat)

theorem issues_consolidateUsers {now : Int} (users : List String) {created : ℕ} {h : Seen F} :
    (consolidateUsers t.app now users created).Issues t.derives (fun _ _ => True) h := by
  induction users generalizing created h with
  | nil => trivial
  | cons user users ih =>
    rw [consolidateUsers]
    split
    · trivial
    · have hread : (sqlx (query (.hotEmbedded user)) : HandlerM F _).Issues t.derives
          (fun rows h' => h' = ⟨.query (.hotEmbedded user), .ok rows⟩ :: h) h := by
        refine .mapError ⟨trivial, fun answer => ?_⟩
        cases answer with
        | error e => trivial
        | ok rows => rfl
      refine .seq hread fun rows h₁ h₁eq => ?_
      subst h₁eq
      have hw : Working user rows [] (⟨.query (.hotEmbedded user), .ok rows⟩ :: h) := ⟨[], h, rfl, by simp⟩
      have horder : ∀ (keys : List String) (h' : Seen F), (Prog.call (Cmd.order keys) : HandlerM F _).Issues t.derives
          (fun categories h'' => h'' = ⟨.order keys, categories⟩ :: h') h' := fun keys h' => ⟨trivial, fun _ => rfl⟩
      refine .seq (horder _ _) fun categories h₂ h₂eq => ?_
      subst h₂eq
      let fading := rows.filter fun r => decide (computeCurrentRetention r now t.app.lifecycle < 20 / 100)
      have hfading : fading.Sublist rows := List.filter_sublist
      refine .seq (issues_consolidateCategories categories (hw.grown (.cons (c := .order _) trivial _)) hfading
        (fun hg => ⟨?_, hg.2.1⟩) fun _ _ _ _ => List.not_mem_nil) fun created' h₃ _ => ih
      have hperm : categories.Perm _ := hg.1
      exact hperm.nodup_iff.mpr (List.nodup_dedup _)

omit [Elementary F] in
theorem issues_resolving {h : Seen F} : (resolveConflicts t.app).Issues t.derives (fun _ _ => True) h := by
  have hread : (sqlx (query (.conflictPairs 50)) : HandlerM F _).Issues t.derives
      (fun pairs h' => Answered h' (.query (.conflictPairs 50)) (.ok pairs)) h := by
    refine .mapError ⟨trivial, fun answer => ?_⟩
    cases answer with
    | error e => trivial
    | ok rows => exact List.mem_cons_self
  refine .seq hread fun pairs h' hpairs => ?_
  split
  · trivial
  · exact .mapError ⟨⟨50, hpairs⟩, fun answer => by cases answer <;> trivial⟩

theorem issues_consolidateAtTick {now : Int} {h : Seen F} :
    (consolidateAtTick t.app now).Issues t.derives (fun _ _ => True) h := by
  unfold consolidateAtTick
  split
  · trivial
  · exact .seq (issues_plain (only_mapError (only_query trivial))) fun _ _ _ => issues_consolidateUsers _

theorem issues_tick {h : Seen F} : (handleTick t.app).Issues t.derives (fun _ _ => True) h := by
  refine .seq (issues_plain (only_clock trivial)) fun now h₁ _ =>
      .seq (issues_plain (only_mapError (only_query trivial))) fun hot h₂ _ => ?_
  refine .seq (issues_plain (only_mapError (only_write trivial))) fun _ h₃ _ => ?_
  refine .seq (issues_plain (only_mapError (only_query trivial))) fun stale h₄ _ => ?_
  refine .seq (issues_plain (only_mapError (only_write trivial))) fun _ h₅ _ => .seq issues_resolving fun _ h₆ _ => ?_
  exact .seq issues_consolidateAtTick fun _ _ _ => trivial

/-! ## All requests -/

theorem issues_memory {req : MemoryRequest F} {h : Seen F} :
    (handleMemoryRequest t.app req t.user).Issues t.derives (fun _ _ => True) h := by
  -- only a store, a batch and a Search issue commands that must be derived from answers
  have hplain : ∀ {p : HandlerM F (ResponseData F)}, p.Only Cmd.plain → p.Issues t.derives (fun _ _ => True) h :=
    fun hp => (issues_plain hp).imp fun _ _ _ => trivial
  cases req with
  | subscribe => trivial
  | store => exact issues_memoryStore
  | storeBatch => exact issues_storeBatch
  | search => exact issues_memorySearch
  | get => exact hplain only_get
  | getMany =>
    exact hplain (only_bind only_require fun _ => only_bind (only_mapError (only_getManyForUser trivial)) fun _ =>
      only_bind (only_mapError (only_unlessEmpty (only_write trivial))) fun _ =>
        only_bind (only_memoryRowsToData trivial _ _) fun _ => trivial)
  | list =>
    exact hplain (only_bind only_require fun _ => only_bind (only_mapError (only_query trivial)) fun _ =>
      only_bind (only_memoryRowsToData trivial _ _) fun _ => trivial)
  | update => exact hplain (only_updateOne trivial)
  | delete => exact hplain (only_affectingOne (only_write trivial))
  | deleteMany => exact hplain (only_affecting (only_unlessEmpty (only_write trivial)))
  | link =>
    have hedge : ∀ a b bump now kind, (createOrStrengthen a b bump now kind : Repo F F).Only Cmd.plain := fun _ _ _ _ _ =>
      only_createOrStrengthen trivial fun _ => trivial
    exact hplain (only_bind only_require fun _ => only_bind (only_clock trivial) fun _ =>
      only_bind (only_mapError (only_linkStrength (hedge ..) fun _ => hedge ..)) fun _ => trivial)
  | unlink args =>
    refine hplain ?_
    show (handleMemoryUnlink args t.user : HandlerM F _).Only Cmd.plain
    unfold handleMemoryUnlink
    split
    · exact only_affecting (only_write trivial)
    · exact only_affectingOne (only_write trivial)
  | getLinked =>
    exact hplain (only_bind only_require fun _ => only_bind (only_mapError (only_linkedFor trivial fun _ => trivial)) fun _ =>
      only_bind (only_linkedToData trivial _ _) fun _ => trivial)
  | getLinkedMany =>
    exact hplain (only_bind only_require fun _ => only_bind (only_mapError (only_linkedForMany trivial fun _ => trivial)) fun _ =>
      only_bind (only_linkedToData trivial _ _) fun _ => trivial)
  | vectorSearch =>
    exact hplain (only_bind only_require fun _ => only_bind (only_clock trivial) fun _ =>
      only_bind (only_mapError only_search') fun _ => trivial)
  | searchLexical => exact hplain (only_bind only_require fun _ => only_bind (only_mapError (only_query trivial)) fun _ => trivial)
  | batchUpdate => exact hplain (only_affecting (only_unlessEmpty (only_write trivial)))

theorem issues_lifecycle {req : LifecycleRequest F} {h : Seen F} :
    (handleLifecycleRequest t.app req t.user).Issues t.derives (fun _ _ => True) h := by
  have hplain : ∀ {p : HandlerM F (ResponseData F)}, p.Only Cmd.plain → p.Issues t.derives (fun _ _ => True) h :=
    fun hp => (issues_plain hp).imp fun _ _ _ => trivial
  cases req with
  | tick => exact issues_tick
  | findFading =>
    exact hplain (only_bind only_require fun _ => only_bind (only_mapError (only_query trivial)) fun _ =>
      only_bind (only_clock trivial) fun _ => only_bind (only_memoryRowsToData trivial _ _) fun _ => trivial)
  | findStable =>
    exact hplain (only_bind only_require fun _ => only_bind (only_mapError (only_query trivial)) fun _ =>
      only_bind (only_memoryRowsToData trivial _ _) fun _ => trivial)
  | markSuperseded => exact hplain (only_affecting (only_unlessEmpty (only_write trivial)))
  | migrateToCold => exact hplain (only_affectingOne (only_write trivial))
  | migrateToHot => exact hplain (only_affectingOne (only_write trivial))
  | convertToStub => exact hplain (only_affectingOne (only_write trivial))
  | updateRetention => exact hplain (only_updateOne trivial)
  | clear =>
    refine hplain (only_bind only_require fun _ => ?_)
    split
    · trivial
    · exact only_bind (only_mapError (only_write trivial)) fun _ => trivial

/-- Whatever it is answered, a request derives what it writes from what it was answered. -/
theorem issues_derived (t : Caller F) : (handleRequest t.app t.request t.user).Issues t.derives (fun _ _ => True) [] := by
  cases t.request with
  | diagnostics req => exact (issues_plain only_diagnostics).imp fun _ _ _ => trivial
  | memory req => exact issues_memory
  | lifecycle req => exact issues_lifecycle
  | unknownBucket => trivial

end

/-! ## Pools -/

def answers (log : List (Event (Cmd F) Cmd.Res)) : Seen F := log.map fun e => ⟨e.command, e.answer⟩

omit [Field F] [LinearOrder F] in
theorem seen_sublist (log : List (Event (Cmd F) Cmd.Res)) (i : ℕ) : (Pool.seen log i).Sublist (answers log) := by
  induction log with
  | nil => exact List.Sublist.refl _
  | cons e log ih =>
    by_cases hi : e.task = i
    · have hcons : Pool.seen (e :: log) i = ⟨e.command, e.answer⟩ :: Pool.seen log i := by simp [Pool.seen, hi]
      rw [hcons]
      exact ih.cons_cons _
    · have hskip : Pool.seen (e :: log) i = Pool.seen log i := by simp [Pool.seen, hi]
      rw [hskip]
      exact ih.cons _

/-- Requests at work on a store with unique ids and ULIDs: what they have been answered is
genuine, and no ULID to come is in use. -/
structure Grounded (p : Requests F) : Prop where
  keyed : p.state.db.Keyed
  genuine : Genuine (answers p.log)
  distinct : Function.Injective p.state.oracle.ulid
  drawn : ∀ owner raw, Answered (answers p.log) (.ulid owner) raw → ∀ n, raw ≠ p.state.oracle.ulid n
  rows : ∀ r ∈ p.state.db.memories, ∀ n, r.id ≠ "mem_" ++ p.state.oracle.ulid n
  reads : ∀ user rows, Answered (answers p.log) (.query (.hotEmbedded user)) (.ok rows) →
    ∀ r ∈ rows, ∀ n, r.id ≠ "mem_" ++ p.state.oracle.ulid n

theorem exec_ulid (bm25 : Bm25 F) {c : Cmd F} {w : World F} (hc : ∀ owner, c ≠ .ulid owner) :
    (exec bm25 c w).2.oracle.ulid = w.oracle.ulid := by
  cases c with
  | ulid owner => exact absurd rfl (hc owner)
  | write wr =>
    simp only [exec]
    split
    · rfl
    · split <;> rfl
  | resolveConflicts =>
    simp only [exec]
    split <;> rfl
  | _ => rfl

section
variable {p : Requests F} {i : ℕ} {t : Caller F} {c : Cmd F} (bm25 : Bm25 F)

/-- Rows come from rows, or are inserted under an id drawn before. -/
theorem rows_exec {w : World F} {h : Seen F} (hd : t.derives h c) : ∀ r' ∈ (exec bm25 c w).2.db.memories,
    (∃ r ∈ w.db.memories, r'.id = r.id) ∨ ∃ owner raw, Answered h (.ulid owner) raw ∧ r'.id = "mem_" ++ raw := by
  refine exec_keeps (P := fun db => ∀ r' ∈ db.memories, (∃ r ∈ w.db.memories, r'.id = r.id) ∨
    ∃ owner raw, Answered h (.ulid owner) raw ∧ r'.id = "mem_" ++ raw) bm25 (fun r' hr' => .inl ⟨r', hr', rfl⟩) ?_ ?_
  · rintro wr a db rfl happly r' hr'
    rcases Write.rows happly hr' with ⟨r, hr, hf⟩ | rfl | ⟨u, id, upd, rfl, r, hr, -, rfl⟩
    · exact .inl ⟨r, hr, hf.id⟩
    · exact .inr hd.1
    · exact .inl ⟨r, hr, rfl⟩
  · rintro llm pairs - r' hr'
    obtain ⟨r, hr, hf⟩ := (resolving_effects llm w.oracle.llm pairs ⟨w.db, 0, 0⟩).1.mem hr'
    exact .inl ⟨r, hr, hf.id⟩

theorem truthful_exec (h : Grounded p) (c : Cmd F) : Truthful (answers p.log) ⟨c, (exec bm25 c p.state).1⟩ := by
  cases c with
  | ulid owner => exact fun user rows hread r hr => h.reads user rows hread r hr 0
  | order keys => exact p.state.oracle.order_perm 0 keys
  | query q =>
    cases q with
    | hotEmbedded user =>
      simp only [exec]
      split
      · trivial
      · exact h.keyed.sublist (List.Sublist.map _ List.filter_sublist)
    | _ => trivial
  | _ => trivial

theorem Grounded.turn (h : Grounded p) (hobeys : p.Obeys Caller.derives) (hn : p.next? i = some (t, c)) :
    Grounded (p.turn (exec bm25) i) := by
  obtain ⟨k, -, hturn⟩ := Pool.turn_some (x := exec bm25) hn
  have hd : t.derives (Pool.seen p.log i) c := hobeys.allowed hn
  have hgenuine : Genuine (⟨c, (exec bm25 c p.state).1⟩ :: answers p.log) := ⟨truthful_exec bm25 h c, h.genuine⟩
  rw [hturn]
  -- drawing an id shifts the ids to come; every other command leaves them
  by_cases hc : ∃ owner, c = .ulid owner
  · obtain ⟨owner, rfl⟩ := hc
    refine ⟨h.keyed, hgenuine, fun m n hmn => Nat.succ_injective (h.distinct hmn), ?_, fun r hr n => h.rows r hr (n + 1), ?_⟩
    · intro owner' raw hans n
      rcases List.mem_cons.mp hans with hans | hans
      · cases hans
        exact fun heq => Nat.succ_ne_zero n (h.distinct heq).symm
      · exact h.drawn owner' raw hans (n + 1)
    · intro user rows hread r hr n
      rcases List.mem_cons.mp hread with hread | hread
      · cases hread
      · exact h.reads user rows hread r hr (n + 1)
  · have hulid := exec_ulid bm25 (w := p.state) fun owner heq => hc ⟨owner, heq⟩
    have hrows : ∀ r ∈ (exec bm25 c p.state).2.db.memories, ∀ n, r.id ≠ "mem_" ++ p.state.oracle.ulid n := by
      -- a row is an old one, or carries an id drawn before
      intro r' hr' n heq
      rcases rows_exec bm25 hd r' hr' with ⟨r, hr, hid⟩ | ⟨owner, raw, hans, hid⟩
      · exact h.rows r hr n (hid ▸ heq)
      · refine h.drawn owner raw ((seen_sublist p.log i).subset hans) n ?_
        rw [hid, String.append_right_inj] at heq
        exact heq
    refine ⟨keyed_exec bm25 h.keyed, hgenuine, ?_, ?_, ?_, ?_⟩
    · rw [hulid]
      exact h.distinct
    · intro owner raw hans n
      rw [hulid]
      rcases List.mem_cons.mp hans with hans | hans
      · exact absurd ⟨owner, (Sigma.mk.inj hans).1.symm⟩ hc
      · exact h.drawn owner raw hans n
    · rw [hulid]
      exact hrows
    · intro user rows hread r hr n
      rw [hulid]
      rcases List.mem_cons.mp hread with hread | hread
      · obtain ⟨rfl, hans⟩ := Sigma.mk.inj hread
        have hrows' : rows = p.state.db.memories.filter fun r => r.userId == user && r.hot && r.embedding.isSome := by
          have hans' := eq_of_heq hans
          simp only [exec] at hans'
          split at hans' <;> cases hans'
          rfl
        rw [hrows'] at hr
        exact h.rows r (List.mem_filter.mp hr).1 n
      · exact h.reads user rows hread r hr n

end

variable [Elementary F]

theorem derives_accepted (w : World F) (ts : List (Caller F)) : (accepted w ts).Obeys Caller.derives :=
  accepted_obeys fun t _ => issues_derived t

theorem grounded_accepted {spec : EmbeddingSpec F} {w : World F} (hw : w.Sound spec) (hk : w.db.Keyed)
    (ts : List (Caller F)) : Grounded (accepted w ts) := by
  refine ⟨hk, trivial, hw.distinct, fun owner raw hans => absurd hans List.not_mem_nil, ?_, fun user rows hread =>
    absurd hread List.not_mem_nil⟩
  intro r hr n heq
  obtain ⟨raw, hid, hminted⟩ := hw.rows r hr
  rw [hid, String.append_right_inj] at heq
  exact hw.fresh n r.userId (heq ▸ hminted)

end CognitiveMemory
