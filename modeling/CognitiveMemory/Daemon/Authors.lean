import CognitiveMemory.Daemon.Budgets
import CognitiveMemory.Daemon.Notebook

/-! Where the notes in the store come from: each is what requests of its own user made of it, or what the
LLM made of notes of that user. -/

namespace CognitiveMemory
open Prog
variable {F : Type}

/-! ## Origins -/

def Request.gives : Request F → Note → Prop
  | .memory (.store args) => fun n => n = args.note
  | .memory (.storeBatch args) => fun n => n ∈ args.notes
  | _ => fun _ => False

def summaryPrompt (texts : List String) : String :=
  consolidationPrompt.replace "{memories}" ("\n".intercalate (texts.map fun text => "- " ++ text))

/-- A note of a user under an id that stood in `w`, or that these callers and the completions of the LLM
have made since. -/
inductive Penned (w : World F) (ts : List (Caller F)) (user : String) : String → Note → Prop
  | stood {id : String} {n : Note} (h : (user, id, n) ∈ w.db.pages) : Penned w ts user id n
  | given {id : String} {n : Note} {t : Caller F} (ht : t ∈ ts) (huser : t.user = user) (h : t.request.gives n) :
      Penned w ts user id n
  | revised {id : String} {n : Note} {t : Caller F} {args : UpdateMemoryArgs F} (ht : t ∈ ts) (huser : t.user = user)
      (hreq : t.request = .memory (.update args)) (hid : args.id = id) (h : Penned w ts user id n) :
      Penned w ts user id (args.toMemoryUpdate.revises n)
  | summed {id content : String} (group : List (String × Note)) (k : ℕ) (h : ∀ e ∈ group, Penned w ts user e.1 e.2)
      (hanswer : w.oracle.llm k (summaryPrompt (group.map fun e => e.2.content)) = .ok content) :
      Penned w ts user id ⟨content, "summary", "{}"⟩

/-! ## Writes of notes -/

theorem pages_deleteMemories {db : Db F} {p : MemoryRow F → Bool} {e : String × String × Note}
    (he : e ∈ (db.deleteMemories p).pages) : e ∈ db.pages := by
  obtain ⟨r, hr, rfl⟩ := List.mem_map.mp he
  exact List.mem_map_of_mem (List.mem_filter.mp hr).1

theorem pages_write [Field F] [LinearOrder F] {db db' : Db F} {wr : Write F} {a : wr.Res}
    (h : wr.apply db = .ok (a, db')) {e : String × String × Note}
    (he : e ∈ db'.pages) : e ∈ db.pages ∨ (∃ row, wr = .insertMemory row ∧ e = row.page) ∨
      ∃ user id upd n, wr = .updateMemory user id upd ∧ (user, id, n) ∈ db.pages ∧ e = (user, id, upd.revises n) := by
  by_cases hrestates : wr.restates
  · cases wr with
    | insertMemory row =>
      change (db.insertMemory row).map ((), ·) = .ok (a, db') at h
      cases hrow : db.insertMemory row with
      | error err =>
        rw [hrow] at h
        cases h
      | ok db₁ =>
        rw [hrow] at h
        cases h
        rw [insertMemory_ok hrow] at he
        obtain ⟨r, hr, rfl⟩ := List.mem_map.mp he
        rcases List.mem_append.mp hr with hr | hr
        · exact .inl (List.mem_map_of_mem hr)
        · exact .inr (.inl ⟨row, rfl, by rw [List.mem_singleton.mp hr]⟩)
    | updateMemory user id upd =>
      cases h
      obtain ⟨r', hr', rfl⟩ := List.mem_map.mp he
      rw [(updateMemory_tables db user id upd).1] at hr'
      obtain ⟨r, hr, rfl⟩ := List.mem_map.mp hr'
      split
      · rename_i hown
        simp only [owned, Bool.and_eq_true, beq_iff_eq] at hown
        obtain ⟨rfl, rfl⟩ := hown
        exact .inr (.inr ⟨_, _, upd, r.note, rfl, List.mem_map_of_mem hr, rfl⟩)
      · exact .inl (List.mem_map_of_mem hr)
    | deleteMemory | deleteMany | clearUser =>
      cases h
      exact .inl (pages_deleteMemories he)
    | _ => exact hrestates.elim
  · rw [Write.pages_same hrestates h] at he
    exact .inl he

/-! ## What requests write -/

def Summed (user : String) (h : Seen F) (n : Note) : Prop :=
  ∃ (rows group : List (MemoryRow F)) (content : String), Answered h (.query (.hotEmbedded user)) (.ok rows) ∧ (∀ m ∈ group, m ∈ rows) ∧
    Answered h (.llm (summaryPrompt (group.map MemoryRow.content)) 200) (.ok content) ∧ n = ⟨content, "summary", "{}"⟩

def Caller.pens (t : Caller F) (h : Seen F) : Cmd F → Prop
  | .write (.insertMemory row) => row.userId = t.user ∧ t.request.gives row.note ∨ Summed row.userId h row.note
  | .write (.updateMemory user id upd) => user = t.user ∧
      ((∃ args, t.request = .memory (.update args) ∧ args.id = id ∧ upd = args.toMemoryUpdate) ∨ ∀ n, upd.revises n = n)
  | _ => True

def Cmd.penless : Cmd F → Prop
  | .write (.insertMemory _) | .write (.updateMemory ..) => False
  | _ => True

theorem Cmd.penless.pens {c : Cmd F} (hc : c.penless) (t : Caller F) (h : Seen F) : t.pens h c := by
  cases c with
  | write wr =>
    cases wr with
    | insertMemory | updateMemory => exact hc.elim
    | _ => trivial
  | _ => trivial

theorem Cmd.quiet.penless {c : Cmd F} (hc : c.quiet) : c.penless := by
  cases c with
  | write wr =>
    cases wr with
    | insertMemory | updateMemory => exact hc.elim
    | _ => trivial
  | _ => trivial

section
variable {t : Caller F} {h : Seen F}

theorem issues_penless {ε α : Type} {p : Prog (Cmd F) Cmd.Res ε α} (hp : p.Only Cmd.penless) :
    p.Issues t.pens (fun _ h' => h ⊆ h') h := by
  refine (hp.issues (fun h c hc => hc.pens t h) h).imp ?_
  rintro a h' ⟨more, rfl, -⟩
  exact List.subset_append_right more h

theorem issues_requiring {userId user : String} {α : Type} {f : Unit → HandlerM F α} {Q : α → Seen F → Prop}
    (hf : userId = user → (f ()).Issues t.pens Q h) : (requireUserMatch userId user >>= f).Issues t.pens Q h := by
  unfold requireUserMatch
  split
  · exact hf ‹_›
  · trivial

section

theorem issues_pens_store [Field F] [LinearOrder F] [Elementary F] {args : StoreMemoryArgs F}
    (hreq : t.request = .memory (.store args)) :
    (handleMemoryStore t.app args t.user).Issues t.pens (fun _ _ => True) h := by
  refine issues_requiring fun huser => .seq (issues_penless (only_embed.imp fun _ hc => hc.penless)) fun vector h₁ _ => ?_
  refine .seq (issues_penless (only_freshMemoryId trivial)) fun id h₂ _ => .seq (issues_penless (only_clock trivial)) fun now h₃ _ => ?_
  obtain ⟨hnote, hrow, -⟩ := storedRow_note t.app args id vector now
  have hgives : t.request.gives (storedRow t.app args id vector now).note := by
    rw [hreq]
    exact hnote
  have hinsert : t.pens h₃ (.write (.insertMemory (storedRow t.app args id vector now))) := .inl ⟨hrow.trans huser, hgives⟩
  refine .seq (P := fun _ _ => True) (.mapError ⟨hinsert, fun answer => ?_⟩) fun _ h₄ _ => ?_
  · cases answer <;> trivial
  · have hqueue : (queueConflictsFor t.app args.userId id vector now).Only Cmd.penless :=
      only_bind (only_mapError (only_search.imp fun _ hc => hc.quiet.penless)) fun _ => only_mapError (only_write trivial)
    exact .seq (issues_penless hqueue) fun _ _ _ => trivial

theorem issues_pens_entries [Field F] {args : StoreBatchArgs F} (hreq : t.request = .memory (.storeBatch args))
    (huser : args.userId = t.user)
    {now : Int} (entries : List BatchMemoryEntry) (hentries : ∀ entry ∈ entries, entry ∈ args.memories) :
    (storeEntries t.app args.userId now entries).Issues t.pens (fun _ _ => True) h := by
  induction entries generalizing h with
  | nil => trivial
  | cons entry entries ih =>
    obtain ⟨hentry, hrest⟩ := List.forall_mem_cons.mp hentries
    refine .seq (issues_penless (only_embed.imp fun _ hc => hc.penless)) fun vector h₁ _ => ?_
    refine .seq (issues_penless (only_freshMemoryId trivial)) fun id h₂ _ => .seq (P := fun _ _ => True) (.mapError ⟨?_, ?_⟩) ?_
    · have hgives : t.request.gives entry.note := by
        rw [hreq]
        exact List.mem_map_of_mem hentry
      exact .inl ⟨huser, hgives⟩
    · intro answer
      cases answer <;> trivial
    · exact fun _ h₃ _ => .seq (ih hrest) fun _ _ _ => trivial

theorem issues_pens_storeBatch [Field F] {args : StoreBatchArgs F} (hreq : t.request = .memory (.storeBatch args)) :
    (handleMemoryStoreBatch t.app args t.user).Issues t.pens (fun _ _ => True) h := by
  refine issues_requiring fun huser => ?_
  split
  · trivial
  · refine .seq (issues_penless (only_clock trivial)) fun now h₁ _ => ?_
    refine .seq (issues_pens_entries hreq huser args.memories fun _ hentry => hentry) fun ids h₂ _ => ?_
    have hlinks : (linkAll args.initialLinkWeight now (orderedPairs ids)).Only (Cmd.penless (F := F)) :=
      only_linkAll (fun _ _ => only_createOrStrengthen trivial fun _ => trivial) _
    exact .seq (issues_penless hlinks) fun _ _ _ => trivial

theorem issues_pens_update {userId id : String} {upd : MemoryUpdate F}
    (hpens : userId = t.user → t.pens h (.write (.updateMemory userId id upd))) :
    (updateOne userId id upd t.user).Issues t.pens (fun _ _ => True) h := by
  refine issues_requiring fun huser => .seq (P := fun _ _ => True) (.mapError ?_) fun _ _ _ => trivial
  unfold update
  split
  · trivial
  · refine .seq (P := fun _ _ => True) ⟨hpens huser, fun answer => ?_⟩ fun _ _ _ => trivial
    cases answer <;> trivial

/-! ## A tick -/

theorem prompt_texts (group : List (MemoryRow F)) : summaryPrompt (group.map MemoryRow.content) =
    consolidationPrompt.replace "{memories}" ("\n".intercalate (group.map fun m => "- " ++ m.content)) := by
  unfold summaryPrompt
  rw [List.map_map]
  rfl

variable [Field F] [LinearOrder F]

section
variable {user : String} {rows : List (MemoryRow F)} {now : Int}

theorem issues_pens_compress {group : List (MemoryRow F)} (hread : Answered h (.query (.hotEmbedded user)) (.ok rows))
    (hgroup : ∀ m ∈ group, m ∈ rows) : (compressCluster t.app user group now).Issues t.pens (fun _ h' => h ⊆ h') h := by
  let prompt := consolidationPrompt.replace "{memories}" ("\n".intercalate (group.map fun m => "- " ++ m.content))
  refine .seq (P := fun answer h' => h' = ⟨Cmd.llm prompt 200, answer⟩ :: h) ⟨trivial, fun _ => rfl⟩ ?_
  rintro answer h₁ rfl
  cases answer with
  | error e => trivial
  | ok text =>
    refine .seq (P := fun text' h' => text' = text ∧ h' = ⟨Cmd.llm prompt 200, .ok text⟩ :: h) ⟨rfl, rfl⟩ ?_
    rintro text _ ⟨rfl, rfl⟩
    refine .seq (issues_penless (only_embed.imp fun _ hc => hc.penless)) fun vector h₂ h₂sub => ?_
    refine .seq (issues_penless (only_freshMemoryId trivial)) fun id h₃ h₃sub => ?_
    have hsub : ⟨Cmd.llm prompt 200, .ok text⟩ :: h ⊆ h₃ := List.Subset.trans h₂sub h₃sub
    have hsummed : Summed user h₃ (summaryRow t.app id user text vector now group).note := by
      refine ⟨rows, group, text, hsub (List.mem_cons_of_mem _ hread), hgroup, ?_, rfl⟩
      rw [prompt_texts]
      exact hsub List.mem_cons_self
    refine .seq (P := fun _ h' => h₃ ⊆ h') (.mapError ⟨.inr hsummed, fun answer => ?_⟩) fun _ h₄ h₄sub => ?_
    · cases answer with
      | error e => trivial
      | ok a => exact List.subset_cons_self _ _
    · refine .seq (issues_penless (only_mapError (only_write trivial))) fun _ h₅ h₅sub => ?_
      exact List.Subset.trans (List.subset_cons_self _ _) (List.Subset.trans hsub (List.Subset.trans h₄sub h₅sub))

variable [Elementary F]

theorem issues_pens_category (mems : List (MemoryRow F)) (used : List String) (created : ℕ)
    (hread : Answered h (.query (.hotEmbedded user)) (.ok rows)) (hmems : ∀ m ∈ mems, m ∈ rows) :
    (consolidateCategory t.app user now mems used created).Issues t.pens (fun _ h' => h ⊆ h') h := by
  induction mems generalizing used created h with
  | nil => exact List.Subset.refl h
  | cons head rest ih =>
    obtain ⟨hhead, hrest⟩ := List.forall_mem_cons.mp hmems
    rw [consolidateCategory]
    split
    · exact List.Subset.refl h
    split
    · exact ih _ _ hread hrest
    dsimp only
    split
    · obtain ⟨picks, hpicks, hsub, -, -⟩ := growGroup_picks (decodeEmbedding head) used rest [head]
      have hgroup : ∀ m ∈ growGroup (decodeEmbedding head) used rest [head], m ∈ rows := by
        rw [hpicks]
        exact List.forall_mem_cons.mpr ⟨hhead, fun m hm => hrest m (hsub.subset hm)⟩
      refine .seq (issues_pens_compress hread hgroup) fun _ h₁ h₁sub => ?_
      exact (ih _ _ (h₁sub hread) hrest).imp fun _ _ => List.Subset.trans h₁sub
    · exact ih _ _ hread hrest

theorem issues_pens_categories {fading : List (MemoryRow F)} (categories : List String) (created : ℕ)
    (hread : Answered h (.query (.hotEmbedded user)) (.ok rows)) (hfading : ∀ m ∈ fading, m ∈ rows) :
    (consolidateCategories t.app user now fading categories created).Issues t.pens (fun _ h' => h ⊆ h') h := by
  induction categories generalizing created h with
  | nil => exact List.Subset.refl h
  | cons category categories ih =>
    refine .seq (P := fun _ h' => h ⊆ h') ?_ fun created' h₁ h₁sub => ?_
    · unfold consolidateMembers
      split
      · exact List.Subset.refl h
      · exact issues_pens_category _ _ _ hread fun m hm => hfading m (List.mem_filter.mp hm).1
    · exact (ih _ (h₁sub hread)).imp fun _ _ => List.Subset.trans h₁sub

theorem issues_pens_users (users : List String) (created : ℕ) :
    (consolidateUsers t.app now users created).Issues t.pens (fun _ _ => True) h := by
  induction users generalizing created h with
  | nil => trivial
  | cons user users ih =>
    rw [consolidateUsers]
    split
    · trivial
    · have hread : (sqlx (query (.hotEmbedded user)) : HandlerM F _).Issues t.pens
          (fun rows h' => Answered h' (.query (.hotEmbedded user)) (.ok rows)) h := by
        refine .mapError ⟨trivial, fun answer => ?_⟩
        cases answer with
        | error e => trivial
        | ok rows => exact List.mem_cons_self
      refine .seq hread fun rows h₁ hrows => .seq (issues_penless (only_call trivial)) fun categories h₂ h₂sub => ?_
      exact .seq (issues_pens_categories _ _ (h₂sub hrows) fun m hm => (List.mem_filter.mp hm).1) fun created' h₃ _ => ih _

end

theorem issues_pens_tick [Elementary F] : (handleTick t.app).Issues t.pens (fun _ _ => True) h := by
  refine .seq (issues_penless (only_clock trivial)) fun now h₁ _ => .seq (issues_penless (only_mapError (only_query trivial))) fun hot h₂ _ => ?_
  refine .seq (issues_penless (only_mapError (only_write trivial))) fun _ h₃ _ => ?_
  refine .seq (issues_penless (only_mapError (only_query trivial))) fun stale h₄ _ => ?_
  refine .seq (issues_penless (only_mapError (only_write trivial))) fun _ h₅ _ => .seq (issues_penless ?_) fun _ h₆ _ => ?_
  · refine only_bind (only_mapError (only_query trivial)) fun pairs => ?_
    split
    · trivial
    · exact only_mapError ⟨trivial, fun _ => only_ofExcept _⟩
  · refine .seq (P := fun _ _ => True) ?_ fun _ _ _ => trivial
    unfold consolidateAtTick
    split
    · trivial
    · exact .seq (issues_penless (only_mapError (only_query trivial))) fun _ _ _ => issues_pens_users _ _

/-! ## Every request -/

omit [LinearOrder F] in
theorem penless_of_issues {req : Request F} {c : Cmd F} (hc : req.issues c)
    (hstore : ∀ row, ¬ req.writes (.insertMemory row))
    (hupdate : ∀ user id upd, ¬ req.writes (.updateMemory user id upd)) : c.penless := by
  cases c with
  | write wr =>
    cases wr with
    | insertMemory row => exact absurd hc (hstore row)
    | updateMemory user id upd => exact absurd hc (hupdate user id upd)
    | _ => trivial
  | _ => trivial

variable [Elementary F]

theorem issues_pens_unwritten {req : Request F} (hreq : t.request = req) (hstore : ∀ row, ¬ req.writes (.insertMemory row))
    (hupdate : ∀ user id upd, ¬ req.writes (.updateMemory user id upd)) :
    (handleRequest t.app t.request t.user).Issues t.pens (fun _ _ => True) h := by
  subst hreq
  refine (issues_penless ((only_issued t.app t.request t.user).imp fun c hc => ?_)).imp fun _ _ _ => trivial
  exact penless_of_issues hc hstore hupdate

theorem issues_pens (t : Caller F) : (handleRequest t.app t.request t.user).Issues t.pens (fun _ _ => True) [] := by
  obtain ⟨app, user, req⟩ := t
  cases req with
  | memory req =>
    cases req with
    | store args => exact issues_pens_store rfl
    | storeBatch args => exact issues_pens_storeBatch rfl
    | update args => exact issues_pens_update fun huser => ⟨huser, .inl ⟨args, rfl, rfl, rfl⟩⟩
    | delete | deleteMany | batchUpdate => exact issues_pens_unwritten rfl (fun _ hw => by cases hw) fun _ _ _ hw => by cases hw
    | _ => exact issues_pens_unwritten rfl (fun _ hw => hw.elim) fun _ _ _ hw => hw.elim
  | lifecycle req =>
    cases req with
    | tick => exact issues_pens_tick
    | updateRetention => exact issues_pens_update fun huser => ⟨huser, .inr fun _ => rfl⟩
    | findFading | findStable => exact issues_pens_unwritten rfl (fun _ hw => hw.elim) fun _ _ _ hw => hw.elim
    | _ => exact issues_pens_unwritten rfl (fun _ hw => by cases hw) fun _ _ _ hw => by cases hw
  | diagnostics req =>
    exact issues_pens_unwritten rfl (fun _ hw => by cases req <;> exact hw.elim) fun _ _ _ hw => by cases req <;> exact hw.elim
  | unknownBucket => trivial

end
end

/-! ## Runs -/

section
variable {w : World F} {ts : List (Caller F)}

def Vouched (w : World F) (ts : List (Caller F)) : (c : Cmd F) × c.Res → Prop
  | ⟨.query (.hotEmbedded user), .ok rows⟩ => ∀ r ∈ rows, Penned w ts user r.id r.note
  | ⟨.llm prompt _, answer⟩ => ∃ k, w.oracle.llm k prompt = answer
  | _ => True

/-- Every note is penned, and the completions to come are of those that were. -/
structure Signatures (w : World F) (ts : List (Caller F)) (s : World F) : Prop where
  notes : ∀ e ∈ s.db.pages, Penned w ts e.1 e.2.1 e.2.2
  llm : ∃ k, ∀ n, s.oracle.llm n = w.oracle.llm (n + k)

theorem vouched_exec [Field F] [LinearOrder F] (bm25 : Bm25 F) (c : Cmd F) {s : World F} (hs : Signatures w ts s) :
    Vouched w ts ⟨c, (exec bm25 c s).1⟩ := by
  cases c with
  | llm prompt tokens =>
    obtain ⟨k, hk⟩ := hs.llm
    exact ⟨0 + k, by rw [← hk]; rfl⟩
  | query q =>
    cases q with
    | hotEmbedded user =>
      simp only [exec]
      split
      · trivial
      · intro r hr
        obtain ⟨hmem, hkept⟩ := List.mem_filter.mp hr
        have hpenned : Penned w ts r.userId r.id r.note := hs.notes r.page (List.mem_map_of_mem hmem)
        simp only [Bool.and_eq_true, beq_iff_eq] at hkept
        rwa [hkept.1.1] at hpenned
    | _ => trivial
  | _ => trivial

theorem penned_summed {user id : String} {n : Note} {h : Seen F} (hn : Summed user h n) (hgood : ∀ e ∈ h, Vouched w ts e) :
    Penned w ts user id n := by
  obtain ⟨rows, group, content, hread, hgroup, hanswer, rfl⟩ := hn
  obtain ⟨k, hk⟩ := hgood _ hanswer
  have hrows : ∀ r ∈ rows, Penned w ts user r.id r.note := hgood _ hread
  refine .summed (group.map fun m => (m.id, m.note)) k (fun e he => ?_) ?_
  · obtain ⟨m, hm, rfl⟩ := List.mem_map.mp he
    exact hrows m (hgroup m hm)
  · rw [List.map_map]
    exact hk

variable [Field F] [LinearOrder F]

theorem penned_write {t : Caller F} (ht : t ∈ ts) {h : Seen F} {wr : Write F} (hc : t.pens h (.write wr))
    (hgood : ∀ e ∈ h, Vouched w ts e) {db db' : Db F} {a : wr.Res} (happly : wr.apply db = .ok (a, db'))
    (hs : ∀ e ∈ db.pages, Penned w ts e.1 e.2.1 e.2.2) : ∀ e ∈ db'.pages, Penned w ts e.1 e.2.1 e.2.2 := by
  intro e he
  rcases pages_write happly he with he | ⟨row, rfl, rfl⟩ | ⟨user, id, upd, n, rfl, hn, rfl⟩
  · exact hs e he
  · rcases hc with ⟨huser, hgives⟩ | hsummed
    · exact .given ht huser.symm hgives
    · exact penned_summed hsummed hgood
  · obtain ⟨huser, hupd⟩ := hc
    rcases hupd with ⟨args, hreq, hid, rfl⟩ | hsame
    · exact .revised ht huser.symm hreq hid (hs _ hn)
    · rw [hsame n]
      exact hs _ hn

theorem signatures_exec (bm25 : Bm25 F) {t : Caller F} (ht : t ∈ ts) {h : Seen F} {c : Cmd F} (hc : t.pens h c)
    (hgood : ∀ e ∈ h, Vouched w ts e) {s : World F} (hs : Signatures w ts s) : Signatures w ts (exec bm25 c s).2 := by
  refine ⟨?_, ?_⟩
  · refine exec_keeps (P := fun db => ∀ e ∈ db.pages, Penned w ts e.1 e.2.1 e.2.2) bm25 hs.notes ?_ fun llm pairs _ => ?_
    · rintro wr a db rfl happly
      exact penned_write ht hc hgood happly hs.notes
    · rw [resolving_pages]
      exact hs.notes
  · obtain ⟨k, hk⟩ := hs.llm
    obtain ⟨l, -, hl⟩ := prompts_exec bm25 c s
    exact ⟨l + k, fun n => by rw [hl, hk, add_assoc]⟩

/-- However requests interleave, every note in the store stood there before or is what requests of its own
user made of it, or a completion of the LLM on such notes of that user and no other. -/
theorem every_note_penned [Elementary F] (bm25 : Bm25 F) (w : World F) (ts : List (Caller F)) (schedule : List ℕ) :
    ∀ r ∈ ((accepted w ts).play (exec bm25) schedule).state.db.memories, Penned w ts r.userId r.id r.note := by
  let allows (t : Caller F) (h : Seen F) (c : Cmd F) : Prop := t.pens h c ∧ t ∈ ts
  have hobeys : (accepted w ts).Obeys allows := accepted_obeys fun t ht => (issues_pens t).mono fun h c hc => ⟨hc, ht⟩
  have hstart : Signatures w ts w := ⟨fun e he => .stood he, 0, fun _ => rfl⟩
  have hanswer : ∀ (c : Cmd F) (s : World F), Signatures w ts s → Vouched w ts ⟨c, (exec bm25 c s).1⟩ :=
    fun c s hs => vouched_exec bm25 c hs
  have hplayed := hobeys.play_keeps (J := Signatures w ts) hanswer (fun t h c s hc hgood hs => signatures_exec bm25 hc.2 hc.1 hgood hs)
    rfl hstart schedule
  exact fun r hr => hplayed.notes _ (List.mem_map_of_mem hr)

end

def teaNote : Note := ⟨"tea", "fact", "{}"⟩

def teaBesideMilk : Requests ℚ :=
  (accepted World.quiet [saves "alice" "tea", saves "bob" "milk"]).play (exec Bm25.none) [0, 1, 0, 1, 0, 1, 0, 0, 0]

/-- It is Alice who wrote it. -/
theorem tea_penned : ("alice", teaNote) ∈ teaBesideMilk.state.db.memories.map (fun r => (r.userId, r.note)) ∧
    ∃ id, Penned World.quiet [saves "alice" "tea", saves "bob" "milk"] "alice" id teaNote := by
  have hstored : ("alice", teaNote) ∈ teaBesideMilk.state.db.memories.map (fun r => (r.userId, r.note)) := by decide +kernel
  refine ⟨hstored, ?_⟩
  obtain ⟨r, hr, heq⟩ := List.mem_map.mp hstored
  obtain ⟨huser, hnote⟩ := Prod.mk.inj heq
  have hpenned := every_note_penned Bm25.none World.quiet [saves "alice" "tea", saves "bob" "milk"] [0, 1, 0, 1, 0, 1, 0, 0, 0] r hr
  rw [huser, hnote] at hpenned
  exact ⟨r.id, hpenned⟩

end CognitiveMemory
