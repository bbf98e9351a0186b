import CognitiveMemory.Daemon.Among
import CognitiveMemory.Daemon.Notebook

/-! Read your writes: a memory whose Store was answered stands, whatever other requests are at work
on the same database, until its user rewords or deletes it; and who asks for it later is told of it. -/

namespace CognitiveMemory
open Prog
variable {F : Type}

/-! ## What is to hold -/

/-- The request names this memory, to change its text or to delete it. -/
def Request.rewords (user id : String) : Request F → Prop
  | .memory (.update args) => args.userId = user ∧ args.id = id ∧ ∃ n, args.revises n ≠ n
  | .memory (.delete userId id') => userId = user ∧ id' = id
  | .memory (.deleteMany userId ids) => userId = user ∧ id ∈ ids
  | .lifecycle (.clear userId _) => userId = user
  | _ => False

/-- The response says that this note was stored under this id. -/
def Request.stored (response : ResponseData F) (id : String) (n : Note) : Request F → Prop
  | .memory (.store args) => response = .memoryStored id ∧ n = args.note
  | .memory (.storeBatch args) => ∃ ids count, response = .memoryStoredBatch ids count ∧ (id, n) ∈ ids.zip args.notes
  | _ => False

def Request.asks (user id : String) : Request F → Prop
  | .memory (.get userId id') => userId = user ∧ id' = id
  | .memory (.getMany userId ids) => userId = user ∧ id ∈ ids
  | _ => False

def ResponseData.tells (id : String) (n : Note) : ResponseData F → Prop
  | .memory data => data.id = id ∧ data.note = n
  | .memories data => ∃ d ∈ data, d.id = id ∧ d.note = n
  | _ => False

/-! ## Statements -/

def Cmd.rewords (user id : String) : Cmd F → Prop
  | .write (.updateMemory userId id' upd) => userId = user ∧ id' = id ∧ ∃ n, upd.revises n ≠ n
  | .write (.deleteMemory userId id') => userId = user ∧ id' = id
  | .write (.deleteMany userId ids) => userId = user ∧ id ∈ ids
  | .write (.clearUser userId) => userId = user
  | _ => False

theorem rewords_of_issues [Field F] {req : Request F} {user id : String} {c : Cmd F} (hissues : req.issues c)
    (h : c.rewords user id) :
    req.rewords user id := by
  cases c with
  | write wr =>
    cases wr with
    | updateMemory u i upd =>
      rcases writes_update hissues with ⟨args, rfl, rfl⟩ | ⟨floor, rfl, rfl⟩
      · obtain ⟨rfl, rfl, -⟩ := hissues
        exact h
      · obtain ⟨-, -, n, hn⟩ := h
        exact absurd rfl hn
    | deleteMemory | deleteMany | clearUser =>
      cases req with
      | diagnostics req => cases req <;> exact hissues.elim
      | memory req =>
        cases req with
        | delete | deleteMany | batchUpdate =>
          cases hissues
          try exact h
        | _ => exact hissues.elim
      | lifecycle req =>
        cases req with
        | tick | findFading | findStable => exact hissues.elim
        | _ =>
          cases hissues
          try exact h
      | unknownBucket => exact hissues.elim
    | _ => exact h.elim
  | _ => exact h.elim

theorem stands_exec [Field F] [LinearOrder F] (bm25 : Bm25 F) {user id : String} {n : Note} {c : Cmd F}
    (hc : ¬ c.rewords user id) {w : World F}
    (h : w.db.notebook user id = some n) : (exec bm25 c w).2.db.notebook user id = some n := by
  refine exec_keeps (P := fun db => db.notebook user id = some n) bm25 h ?_ fun llm pairs _ => ?_
  · rintro wr a db rfl happly
    by_cases hwr : wr.restates
    · cases wr with
      | insertMemory row =>
        obtain ⟨d, hd, hp⟩ := map_ok happly
        cases hp
        obtain ⟨hunused, hnotes⟩ := notebook_insert hd
        rw [hnotes, Book.write_other, h]
        rintro ⟨rfl, rfl⟩
        rw [hunused] at h
        cases h
      | updateMemory u i upd =>
        obtain ⟨-, hdb⟩ := Prod.mk.inj (Except.ok.inj happly)
        rw [← hdb, notebook_update]
        by_cases hkey : user = u ∧ id = i
        · obtain ⟨rfl, rfl⟩ := hkey
          have hsame : upd.revises n = n := by
            by_contra hne
            exact hc ⟨rfl, rfl, n, hne⟩
          simp [Book.revise, h, hsame]
        · rw [Book.revise_other hkey, h]
      | deleteMemory u i =>
        obtain ⟨-, hdb⟩ := Prod.mk.inj (Except.ok.inj happly)
        rw [← hdb, notebook_delete (u := u) (q := (· == i)) (fun r => by simp [owned]), Book.erase_other, h]
        rintro ⟨rfl, hid⟩
        exact hc ⟨rfl, (beq_iff_eq.mp hid).symm⟩
      | deleteMany u ids =>
        obtain ⟨-, hdb⟩ := Prod.mk.inj (Except.ok.inj happly)
        rw [← hdb, notebook_delete (u := u) (q := ids.contains) (fun r => by simp [ownedAmong]), Book.erase_other, h]
        rintro ⟨rfl, hid⟩
        exact hc ⟨rfl, List.contains_iff_mem.mp hid⟩
      | clearUser u =>
        obtain ⟨-, hdb⟩ := Prod.mk.inj (Except.ok.inj happly)
        rw [← hdb, notebook_delete (u := u) (q := fun _ => true) (fun r => by simp), Book.erase_other, h]
        rintro ⟨rfl, -⟩
        exact hc rfl
      | _ => exact hwr.elim
    · rw [notebook_of_pages (Write.pages_same hwr happly), h]
  · rw [notebook_of_pages (resolving_pages _ _ _ _), h]

/-! ## Requests among others -/

def keeping (user : String) (free : String → Prop) : Rely (World F) where
  rel w w' := w.db.Keyed → w'.db.Keyed ∧ ∀ id n, free id → w.db.notebook user id = some n → w'.db.notebook user id = some n
  refl _ hk := ⟨hk, fun _ _ _ h => h⟩
  trans h h' hk := ⟨(h' (h hk).1).1, fun id n hid hn => (h' (h hk).1).2 id n hid ((h hk).2 id n hid hn)⟩

def World.Stand (user : String) (free : String → Prop) (notes : List (String × Note)) (w : World F) : Prop :=
  w.db.Keyed ∧ ∀ e ∈ notes, free e.1 → w.db.notebook user e.1 = some e.2

section
variable {bm25 : Bm25 F} {w : World F} {user : String} {free : String → Prop} {kept : List (String × Note)}

theorem World.Stand.keeping {w' : World F} (hr : (keeping user free).rel w w') (h : w.Stand user free kept) :
    w'.Stand user free kept := ⟨(hr h.1).1, fun e he hfree => (hr h.1).2 e.1 e.2 hfree (h.2 e he hfree)⟩

theorem keeping_exec [Field F] [LinearOrder F] {c : Cmd F} (hc : ∀ id, free id → ¬ c.rewords user id) :
    (keeping user free).rel w (exec bm25 c w).2 :=
  fun hk => ⟨keyed_exec bm25 hk, fun id _ hid hn => stands_exec bm25 (hc id hid) hn⟩

theorem rewords_of_wordless {c : Cmd F} (hc : c.wordless) (id : String) : ¬ c.rewords user id := by
  intro h
  cases c with
  | write wr => cases wr <;> first | exact hc _ rfl trivial | exact h
  | _ => exact h

variable [Field F] [LinearOrder F]

theorem amid_wordless {ε α : Type} {p : Prog (Cmd F) Cmd.Res ε α} (hp : p.Only Cmd.wordless) (h : w.Stand user free kept) :
    p.Amid (exec bm25) (keeping user free) (fun _ w' => w'.Stand user free kept) w :=
  hp.amid (fun _ _ hr hs => hs.keeping hr)
    (fun _ _ hc hs => hs.keeping (keeping_exec fun id _ => rewords_of_wordless hc id)) h

theorem amid_require {α : Type} {userId connected : String} {f : Unit → HandlerM F α}
    {Q : Except HandlerError α → World F → Prop}
    (hfail : userId ≠ connected → ∀ message w', (keeping user free).rel w w' → Q (.error (.invalidPayload message)) w')
    (hok : userId = connected → (f ()).Amid (exec bm25) (keeping user free) Q w) :
    (requireUserMatch userId connected >>= f).Amid (exec bm25) (keeping user free) Q w := by
  unfold requireUserMatch
  split
  · exact hok ‹_›
  · exact hfail ‹_› _

theorem amid_inserting {row : MemoryRow F} (huser : row.userId = user) (h : w.Stand user free kept) :
    (sqlx (write (.insertMemory row))).Amid (exec bm25) (keeping user free) (fun answer w' =>
      w'.Stand user free kept ∧ ∀ a, answer = .ok a → w'.Stand user free ((row.id, row.note) :: kept)) w := by
  refine .mapError (amid_single (fun r => ⟨r, rfl⟩) fun w₁ hr => ends_write.imp fun answer w₂ h₂ w₃ hr' => ?_)
  have h₁ := h.keeping hr
  cases answer with
  | error e =>
    have hsame : w₂.Stand user free kept := ⟨h₂.1 ▸ h₁.1, h₂.1 ▸ h₁.2⟩
    exact ⟨hsame.keeping hr', nofun⟩
  | ok a =>
    obtain ⟨d, hd, hp⟩ := map_ok h₂.2
    cases hp
    have hk := Write.keyed (w := .insertMemory row) h₁.1 h₂.2
    obtain ⟨hunused, hnotes⟩ := notebook_insert hd
    have hold : ∀ e ∈ kept, free e.1 → w₂.db.notebook user e.1 = some e.2 := by
      intro e he hfree
      rw [hnotes, Book.write_other, h₁.2 e he hfree]
      rintro ⟨-, hid⟩
      have hgone := h₁.2 e he hfree
      rw [hid, hunused] at hgone
      cases hgone
    have hall : w₂.Stand user free ((row.id, row.note) :: kept) := by
      refine ⟨hk, List.forall_mem_cons.mpr ⟨fun _ => ?_, hold⟩⟩
      rw [hnotes, ← huser]
      exact Book.write_same
    exact ⟨(World.Stand.keeping hr' ⟨hk, hold⟩), fun _ _ => hall.keeping hr'⟩

variable {app : AppState F}

/-! ## Who stores -/

def World.Stored (w : World F) (user : String) (free : String → Prop) (req : Request F)
    (answer : Except HandlerError (ResponseData F)) : Prop :=
  ∀ response id n, answer = .ok response → req.stored response id n → free id → w.db.notebook user id = some n

omit [Field F] [LinearOrder F] in
theorem stored_error {req : Request F} {e : HandlerError} :
    w.Stored user free req (.error e) := fun _ _ _ h _ _ => by cases h

theorem amid_store [Elementary F] {args : StoreMemoryArgs F} (hk : w.db.Keyed) :
    (handleMemoryStore app args user).Amid (exec bm25)
    (keeping user free) (fun answer w' => w'.Stored user free (.memory (.store args)) answer) w := by
  have hstart : w.Stand user free [] := ⟨hk, nofun⟩
  refine amid_require (fun _ _ _ _ => stored_error) fun huser => ?_
  subst huser
  refine .seq (amid_wordless (only_embed.imp fun _ hc => hc.wordless) hstart) (fun vector w₁ h₁ => ?_) fun _ _ _ => stored_error
  refine .seq (amid_wordless (only_freshMemoryId (Cmd.still.wordless trivial)) h₁) (fun id w₂ h₂ => ?_) fun _ _ _ => stored_error
  refine .seq (amid_wordless (only_clock (Cmd.still.wordless trivial)) h₂) (fun now w₃ h₃ => ?_) fun _ _ _ => stored_error
  obtain ⟨hnote, hu, hid⟩ := storedRow_note app args id vector now
  refine .seq (amid_inserting hu h₃) (fun a w₄ h₄ => ?_) fun _ _ _ => stored_error
  have hstands := h₄.2 a rfl
  rw [hnote, hid] at hstands
  refine .seq (amid_wordless (wordless_queueConflictsFor _ _ _ _) hstands) (fun _ w₅ h₅ w₆ hr => ?_) fun _ _ _ => stored_error
  rintro response id' n hresponse ⟨hstored, rfl⟩ hfree
  cases hresponse
  cases hstored
  exact (h₅.keeping hr).2 (id, args.note) (List.mem_singleton_self _) hfree

theorem amid_storeEntries {now : Int} (entries : List BatchMemoryEntry) (h : w.Stand user free kept) :
    (storeEntries app user now entries).Amid (exec bm25) (keeping user free) (fun answer w' => ∀ ids, answer = .ok ids →
      w'.Stand user free (ids.zip (entries.map BatchMemoryEntry.note) ++ kept)) w := by
  induction entries generalizing w kept with
  | nil =>
    rintro w' hr ids hids
    cases hids
    exact h.keeping hr
  | cons entry entries ih =>
    refine .seq (amid_wordless (only_embed.imp fun _ hc => hc.wordless) h) (fun vector w₁ h₁ => ?_) fun _ _ _ _ h => by cases h
    refine .seq (amid_wordless (only_freshMemoryId (Cmd.still.wordless trivial)) h₁) (fun id w₂ h₂ => ?_) fun _ _ _ _ h => by cases h
    refine .seq (amid_inserting rfl h₂) (fun a w₃ h₃ => ?_) fun _ _ _ _ h => by cases h
    refine .seq (ih (h₃.2 a rfl)) (fun ids w₄ h₄ w₅ hr => ?_) fun _ _ _ _ h => by cases h
    rintro _ hids
    cases hids
    obtain ⟨hk, hstand⟩ := (h₄ ids rfl).keeping hr
    refine ⟨hk, fun e he => hstand e ?_⟩
    simp only [List.map_cons, List.zip_cons_cons, List.cons_append, List.mem_cons, List.mem_append] at he ⊢
    tauto

theorem amid_storeBatch {args : StoreBatchArgs F} (hk : w.db.Keyed) : (handleMemoryStoreBatch app args user).Amid (exec bm25)
    (keeping user free) (fun answer w' => w'.Stored user free (.memory (.storeBatch args)) answer) w := by
  have hstart : w.Stand user free [] := ⟨hk, nofun⟩
  refine amid_require (fun _ _ _ _ => stored_error) fun huser => ?_
  subst huser
  split
  · rintro w' hr response id n hresponse ⟨ids, count, hids, hmem⟩
    cases hresponse
    cases hids
    cases hmem
  refine .seq (amid_wordless (only_clock (Cmd.still.wordless trivial)) hstart) (fun now w₁ h₁ => ?_) fun _ _ _ => stored_error
  refine .seq (amid_storeEntries args.memories h₁) (fun ids w₂ h₂ => ?_) fun _ _ _ => stored_error
  refine .seq (amid_wordless (only_linkAll (fun a c => only_createOrStrengthen (Cmd.still.wordless trivial) fun _ =>
    wordless_write not_false) _) (h₂ ids rfl)) (fun count w₃ h₃ w₄ hr => ?_) fun _ _ _ => stored_error
  rintro response id n hresponse ⟨ids', count', hids, hmem⟩ hfree
  cases hresponse
  cases hids
  exact (h₃.keeping hr).2 (id, n) (List.mem_append_left _ hmem) hfree

theorem amid_stored [Elementary F] {t : Caller F} (hk : w.db.Keyed) (huser : t.user = user) :
    (handleRequest t.app t.request t.user).Amid (exec bm25)
    (keeping user free) (fun answer w' => w'.Stored user free t.request answer) w := by
  obtain ⟨app, u, req⟩ := t
  subst huser
  cases req with
  | memory req =>
    cases req with
    | store => exact amid_store hk
    | storeBatch => exact amid_storeBatch hk
    | _ => exact (amid_any _ _).imp fun _ _ _ _ _ _ _ h => h.elim
  | _ => exact (amid_any _ _).imp fun _ _ _ _ _ _ _ h => h.elim

/-! ## Who asks -/

/-- An answer that tells the note, or the failure of a statement. -/
def Tells (id : String) (n : Note) : Except HandlerError (ResponseData F) → Prop
  | .ok response => response.tells id n
  | .error e => ∃ e', e = .storage e'

omit [Field F] [LinearOrder F] in
theorem World.Stand.row {id : String} {n : Note} (h : w.Stand user free [(id, n)]) (hfree : free id) :
    ∃ r ∈ w.db.memories, r.userId = user ∧ r.id = id ∧ r.note = n :=
  (notebook_eq_some h.1).mp (h.2 (id, n) (List.mem_singleton_self _) hfree)

theorem amid_asked {q : Query F} {P : q.Res → Prop} (h : w.Stand user free kept)
    (hP : ∀ (w' : World F) a, w'.Stand user free kept → q.eval bm25 w'.db = .ok a → P a) :
    (sqlx (query q)).Amid (exec bm25) (keeping user free)
      (fun answer _ => (∀ e, answer = .error e → ∃ e', e = .storage e') ∧ ∀ a, answer = .ok a → P a) w :=
  (amid_query (J := fun w' => w'.Stand user free kept) (fun _ _ hr hs => hs.keeping hr)
    (fun _ _ hdb hs => ⟨hdb ▸ hs.1, hdb ▸ hs.2⟩) hP h).imp fun _ _ hq => hq.2

variable [Elementary F]

theorem amid_tell {id : String} {n : Note} {row : MemoryRow F} (hid : row.id = id) (hnote : row.note = n) :
    (do
      let data ← memoryRowToData app row
      Pure.pure (.memory data) : HandlerM F (ResponseData F)).Amid (exec bm25) (keeping user free) (fun answer _ => Tells id n answer) w := by
  intro w₁ _ w₂ _
  exact ⟨hid, hnote⟩

theorem amid_get {id : String} {n : Note} (h : w.Stand user free [(id, n)]) (hfree : free id) :
    (handleMemoryGet app user id user).Amid (exec bm25) (keeping user free) (fun answer _ => Tells id n answer) w := by
  refine amid_require (fun hne => absurd rfl hne) fun _ => ?_
  have hfound (w' : World F) (row? : Option (MemoryRow F)) (h' : w'.Stand user free [(id, n)])
      (heval : (Query.getForUser user id : Query F).eval bm25 w'.db = .ok row?) : ∃ row, row? = some row ∧ row.id = id ∧ row.note = n := by
    obtain rfl : w'.db.memories.find? (fun r => r.userId == user && r.id == id) = row? := Except.ok.inj heval
    obtain ⟨r, hr, huser, hid, hnote⟩ := h'.row hfree
    cases hfind : w'.db.memories.find? fun r => r.userId == user && r.id == id with
    | none =>
      have hmiss := List.find?_eq_none.mp hfind r hr
      simp [huser, hid] at hmiss
    | some row =>
      have hown := List.find?_some hfind
      simp only [Bool.and_eq_true, beq_iff_eq] at hown
      have hsame := h'.1.eq_of_id (List.mem_of_find?_eq_some hfind) hr (hown.2.trans hid.symm)
      exact ⟨row, rfl, hown.2, hsame ▸ hnote⟩
  refine .seq (amid_asked (q := .getForUser user id) h hfound) (fun row? w₁ h₁ => ?_) fun e w₁ h₁ => h₁.1 e rfl
  obtain ⟨row, rfl, hid, hnote⟩ := h₁.2 row? rfl
  dsimp only
  split
  · exact .seq amid_sqlx (fun _ w₂ _ => amid_tell hid hnote) fun e w₂ h₂ => h₂ e rfl
  · exact amid_tell hid hnote

theorem amid_told {rows : List (MemoryRow F)} : (memoryRowsToData app rows).Amid (exec bm25) (keeping user free)
    (fun answer _ => ∃ data, answer = .ok data ∧ data.map MemoryData.page = rows.map MemoryRow.page) w := by
  induction rows generalizing w with
  | nil => exact fun _ _ => ⟨[], rfl, rfl⟩
  | cons row rows ih =>
    refine .seq (P := fun answer _ => ∃ d, answer = .ok d ∧ d.page = row.page) (fun w₁ _ w₂ _ => ⟨_, rfl, rfl⟩) ?_ ?_
    · rintro d w₁ ⟨_, hd, hpage⟩
      cases hd
      refine .seq ih ?_ ?_
      · rintro ds w₂ ⟨_, hds, hpages⟩ w₃ _
        cases hds
        exact ⟨d :: ds, rfl, congrArg₂ List.cons hpage hpages⟩
      · rintro e w₂ ⟨_, he, -⟩
        cases he
    · rintro e w₁ ⟨_, he, -⟩
      cases he

theorem amid_getMany {id : String} {n : Note} {ids : List String} (h : w.Stand user free [(id, n)])
    (hfree : free id) (hid : id ∈ ids) :
    (handleMemoryGetMany app user ids user).Amid (exec bm25) (keeping user free) (fun answer _ => Tells id n answer) w := by
  refine amid_require (fun hne => absurd rfl hne) fun _ => ?_
  have hread : (sqlx (getManyForUser user ids) : HandlerM F (List (MemoryRow F))).Amid (exec bm25) (keeping user free)
      (fun answer _ => (∀ e, answer = .error e → ∃ e', e = .storage e') ∧
        ∀ rows, answer = .ok rows → (user, id, n) ∈ rows.map MemoryRow.page) w := by
    unfold getManyForUser
    rw [if_neg (by simp [List.ne_nil_of_mem hid])]
    refine amid_asked (q := .getManyForUser user ids) h fun w' rows h' heval => ?_
    obtain rfl : w'.db.getManyForUser user ids = rows := Except.ok.inj heval
    obtain ⟨r, hr, rfl, rfl, rfl⟩ := h'.row hfree
    exact List.mem_map_of_mem (mem_getManyForUser.mpr ⟨hr, rfl, hid⟩)
  refine .seq hread (fun rows w₁ h₁ => ?_) fun e w₁ h₁ => h₁.1 e rfl
  refine .seq amid_sqlx (fun _ w₂ _ => ?_) fun e w₂ h₂ => h₂ e rfl
  refine .seq amid_told ?_ ?_
  · rintro data w₃ ⟨_, hdata, hpages⟩ w₄ _
    cases hdata
    have hpage := h₁.2 rows rfl
    rw [← pages_restored, ← hpages] at hpage
    obtain ⟨d, hd, heq⟩ := List.mem_map.mp hpage
    obtain ⟨-, hid, hnote⟩ : d.userId = user ∧ d.id = id ∧ d.note = n := by simpa [MemoryData.page] using heq
    exact ⟨d, hd, hid, hnote⟩
  · rintro e w₃ ⟨_, he, -⟩
    cases he

theorem amid_asks {t : Caller F} {id : String} {n : Note} (huser : t.user = user) (h : w.Stand user free [(id, n)])
    (hfree : free id) (hasks : t.request.asks user id) :
    (handleRequest t.app t.request t.user).Amid (exec bm25) (keeping user free) (fun answer _ => Tells id n answer) w := by
  obtain ⟨app, connected, req⟩ := t
  subst huser
  cases req with
  | memory req =>
    cases req with
    | get =>
      obtain ⟨rfl, rfl⟩ := hasks
      exact amid_get h hfree
    | getMany =>
      obtain ⟨rfl, hid⟩ := hasks
      exact amid_getMany h hfree hid
    | _ => exact hasks.elim
  | _ => exact hasks.elim

/-! ## Runs -/

theorem only_own (t : Caller F) (user : String) : (handleRequest t.app t.request t.user).Only fun c =>
    ∀ id, c.rewords user id → t.user = user ∧ t.request.rewords user id := by
  by_cases hmine : t.user = user
  · exact (only_issued t.app t.request t.user).imp fun c hc id h => ⟨hmine, rewords_of_issues hc h⟩
  have hmismatch {α : Type} {f : Unit → HandlerM F α} {P : Cmd F → Prop} : (requireUserMatch user t.user >>= f).Only P := by
    unfold requireUserMatch
    rw [if_neg (Ne.symm hmine)]
    trivial
  by_cases hnames : ∃ id, t.request.rewords user id
  · obtain ⟨app, connected, req⟩ := t
    obtain ⟨id, hnames⟩ := hnames
    cases req with
    | memory req =>
      cases req with
      | update | delete | deleteMany =>
        obtain ⟨rfl, -⟩ := hnames
        exact hmismatch
      | _ => exact hnames.elim
    | lifecycle req =>
      cases req with
      | clear =>
        cases hnames
        exact hmismatch
      | _ => exact hnames.elim
    | _ => exact hnames.elim
  · exact (only_issued t.app t.request t.user).imp fun c hc id h => absurd ⟨id, rewords_of_issues hc h⟩ hnames

/-- No request of the user rewords it. -/
def Unreworded (ts : List (Caller F)) (user id : String) : Prop := ∀ t ∈ ts, t.user = user → ¬ t.request.rewords user id

/-- A stored memory stands when the answer is there, with requests that leave it so. -/
theorem stored_stands {w : World F} (h : Reachable bm25 anyCaller anyStep w) (ts : List (Caller F)) (is : List ℕ)
    {i : ℕ} {t : Caller F} {response : ResponseData F} {id : String} {n : Note}
    (hdone : ((accepted w ts).play (exec bm25) is).tasks[i]? = some (t, Prog.pure response))
    (hstored : t.request.stored response id n) (hkept : Unreworded ts t.user id) :
    let p := (accepted w ts).play (exec bm25) is
    p.state.Stand t.user (Unreworded ts t.user) [(id, n)] ∧ ∀ (j : ℕ) (tp : Caller F × HandlerM F (ResponseData F)),
      p.tasks[j]? = some tp → tp.2.Abides (exec bm25) (keeping t.user (Unreworded ts t.user)) p.state := by
  intro p
  have hstart (j : ℕ) (tp : Caller F × HandlerM F (ResponseData F)) (hj : (accepted w ts).tasks[j]? = some tp) :
      tp.2.Abides (exec bm25) (keeping t.user (Unreworded ts t.user)) w ∧
        tp.2.Amid (exec bm25) (keeping t.user (Unreworded ts t.user))
          (fun answer w' => tp.1.user = t.user → w'.Stored t.user (Unreworded ts t.user) tp.1.request answer) w := by
    obtain ⟨s, hs, rfl⟩ := List.mem_map.mp (List.mem_of_getElem? hj)
    refine ⟨(only_own s t.user).abides fun c w' hc => keeping_exec fun id hid hre => hid s hs (hc id hre).1 (hc id hre).2, ?_⟩
    by_cases huser : s.user = t.user
    · exact (amid_stored h.keyed huser).imp fun _ _ hst _ => hst
    · exact (amid_any _ _).imp fun _ _ _ hsame => absurd hsame huser
  obtain ⟨hkeyed, htasks⟩ := Pool.play_amid
    (Q := fun _ (s : Caller F) answer (w' : World F) => s.user = t.user → w'.Stored t.user (Unreworded ts t.user) s.request answer)
    hstart is
  have hnote : p.state.db.notebook t.user id = some n :=
    Prog.Amid.ended (r := .ok response) (htasks i _ hdone).2 rfl response id n rfl hstored hkept
  exact ⟨⟨(hkeyed h.keyed).1, List.forall_mem_singleton.mpr fun _ => hnote⟩, fun j tp hj => (htasks j tp hj).1⟩

theorem stand_told {p : Requests F} {user id : String} {n : Note} {free : String → Prop}
    (hstand : p.state.Stand user free [(id, n)])
    (hfree : free id) (habides : ∀ (j : ℕ) (tp : Caller F × HandlerM F (ResponseData F)), p.tasks[j]? = some tp →
      tp.2.Abides (exec bm25) (keeping user free) p.state) (js : List ℕ) :
    (p.play (exec bm25) js).state.db.notebook user id = some n ∧
      ∀ (j : ℕ) (s : Caller F) (answer : Except HandlerError (ResponseData F)),
        p.tasks[j]? = some (s, handleRequest s.app s.request s.user) → s.user = user → s.request.asks user id →
        (p.play (exec bm25) js).tasks[j]? = some (s, Prog.ofExcept answer) → Tells id n answer := by
  have hlater (j : ℕ) (tp : Caller F × HandlerM F (ResponseData F)) (hj : p.tasks[j]? = some tp) :
      tp.2.Abides (exec bm25) (keeping user free) p.state ∧ tp.2.Amid (exec bm25) (keeping user free) (fun answer _ =>
        p.tasks[j]? = some (tp.1, handleRequest tp.1.app tp.1.request tp.1.user) → tp.1.user = user →
          tp.1.request.asks user id → Tells id n answer) p.state := by
    refine ⟨habides j tp hj, ?_⟩
    obtain ⟨s, q⟩ := tp
    by_cases hasks : q = handleRequest s.app s.request s.user ∧ s.user = user ∧ s.request.asks user id
    · obtain ⟨hq, huser, hasks⟩ := hasks
      dsimp only
      rw [hq]
      exact (amid_asks huser hstand hfree hasks).imp fun _ _ htells _ _ _ => htells
    · refine (amid_any _ _).imp fun _ _ _ hbegin huser hid => absurd ⟨?_, huser, hid⟩ hasks
      exact congrArg Prod.snd (Option.some.inj (hj.symm.trans hbegin))
  obtain ⟨hkept, hend⟩ := Pool.play_amid (Q := fun j s answer _ => p.tasks[j]? = some (s, handleRequest s.app s.request s.user) →
    s.user = user → s.request.asks user id → Tells id n answer) hlater js
  refine ⟨(hkept hstand.1).2 id n hfree (hstand.2 _ (List.mem_singleton_self _) hfree), fun j s answer hbegin huser hasks hdone => ?_⟩
  exact (hend j _ hdone).2.ended hbegin huser hasks

/-- A stored memory is there for every request that begins after the answer. -/
theorem read_your_writes {w : World F} (h : Reachable bm25 anyCaller anyStep w) (ts : List (Caller F)) (is js : List ℕ)
    {i : ℕ} {t : Caller F} {response : ResponseData F} {id : String} {n : Note}
    (hdone : ((accepted w ts).play (exec bm25) is).tasks[i]? = some (t, Prog.pure response))
    (hstored : t.request.stored response id n) (hkept : ∀ t' ∈ ts, t'.user = t.user → ¬ t'.request.rewords t.user id) :
    let p := (accepted w ts).play (exec bm25) is
    let p' := p.play (exec bm25) js
    p'.state.db.notebook t.user id = some n ∧ ∀ (j : ℕ) (s : Caller F) (answer : Except HandlerError (ResponseData F)),
      p.tasks[j]? = some (s, handleRequest s.app s.request s.user) → s.user = t.user → s.request.asks t.user id →
      p'.tasks[j]? = some (s, Prog.ofExcept answer) → Tells id n answer := by
  intro p p'
  obtain ⟨hstand, habides⟩ := stored_stands h ts is hdone hstored hkept
  exact stand_told hstand hkept habides js

end

def asksFor (user id : String) : Caller ℚ := ⟨.flat, user, .memory (.get user id)⟩

/-- Alice asks for her tea while Bob's milk is being stored. -/
theorem alice_is_told_of_tea :
    let p := (accepted World.quiet [saves "alice" "tea", saves "bob" "milk", asksFor "alice" "mem_"]).play (exec Bm25.none)
      [0, 1, 0, 1, 0, 1, 0, 1, 0, 0, 0, 0]
    ∃ data, (p.play (exec Bm25.none) [1, 2, 1, 2]).tasks[2]? = some (asksFor "alice" "mem_", Prog.pure (.memory data)) ∧
      data.id = "mem_" ∧ data.note = ⟨"tea", "fact", "{}"⟩ := by
  refine ⟨_, rfl, ?_⟩
  have hdone : ((accepted World.quiet [saves "alice" "tea", saves "bob" "milk", asksFor "alice" "mem_"]).play (exec Bm25.none)
      [0, 1, 0, 1, 0, 1, 0, 1, 0, 0, 0, 0]).tasks[0]? = some (saves "alice" "tea", Prog.pure (.memoryStored "mem_")) := rfl
  have hstored : (saves "alice" "tea").request.stored (.memoryStored "mem_") "mem_" ⟨"tea", "fact", "{}"⟩ := ⟨rfl, rfl⟩
  have htold := read_your_writes quiet_start.reachable _ _ [1, 2, 1, 2] hdone hstored (by simp [saves, asksFor, Request.rewords])
  exact htold.2 2 (asksFor "alice" "mem_") (.ok (.memory _)) rfl rfl ⟨rfl, rfl⟩ rfl

end CognitiveMemory
