import CognitiveMemory.Daemon.Coherence
import CognitiveMemory.Daemon.Views

/-! Two worlds whose stores hold the same data of one user, and what one command of that user's
request does in both. -/

namespace CognitiveMemory
open Prog
variable {F : Type}

/-! ## Calm stores stay calm -/

def Caller.namesOwn (t : Caller F) (db : Db F) : Prop :=
  ∀ a b, t.links a b ∨ t.unlinks a b false ∨ t.unlinks a b true → db.others t.user a = false ∧ db.others t.user b = false

theorem Caller.namesOwn.not_meddles {t : Caller F} {db : Db F} (h : t.namesOwn db) : ¬ t.meddles db := by
  rintro ⟨a, b, ha, hb, hedge⟩
  have hown : db.others t.user a = false ∧ db.others t.user b = false := by
    rcases hedge with hlink | ⟨-, -, -, hunlink | hunlink | hunlink⟩
    · exact h a b (.inl hlink)
    · exact h a b (.inr (.inl hunlink))
    · exact h a b (.inr (.inr hunlink))
    · exact (h b a (.inr (.inr hunlink))).symm
  rw [ha] at hown
  exact absurd hown.1 Bool.noConfusion

/-- The ends of the edges a request may write are nobody else's. -/
theorem Caller.namesOwn.joins {t : Caller F} {spec : EmbeddingSpec F} {w : World F} (hw : w.Sound spec)
    (hn : t.namesOwn w.db)
    {a b : String} (h : t.joins a b w) : w.db.others t.user a = false ∧ w.db.others t.user b = false := by
  rcases h with ⟨ha, hb⟩ | hlink
  · exact ⟨ha.not_others hw, hb.not_others hw⟩
  · exact hn a b (.inl hlink)

theorem pair_joins {t : Caller F} {w : World F} {pairs : List (String × String)}
    (h : ∀ p ∈ pairs, MintedFor w p.1 t.user ∧ MintedFor w p.2 t.user) {a b : String} (hab : (a, b) ∈ bothWays pairs) :
    t.joins a b w := by
  obtain ⟨p, hp, hab⟩ := List.mem_flatMap.mp hab
  obtain ⟨h₁, h₂⟩ := h p hp
  simp only [List.mem_cons, Prod.mk.injEq, List.not_mem_nil, or_false] at hab
  rcases hab with ⟨rfl, rfl⟩ | ⟨rfl, rfl⟩
  · exact .inl ⟨h₁, h₂⟩
  · exact .inl ⟨h₂, h₁⟩

theorem joins_of_mayWrite [Field F] {spec : EmbeddingSpec F} {t : Caller F} {w : World F} {wr : Write F}
    (hmay : t.mayWrite spec w wr) {a b : String} (h : wr.joins a b) : t.joins a b w := by
  cases wr with
  | upsertEdge s d existing bump now kind =>
    cases h
    exact hmay
  | strengthenPairs pairs amount now kind => exact pair_joins hmay.2 h
  | queueConflicts userId newId hits now =>
    obtain ⟨rfl, hnew, hhits⟩ := hmay
    obtain ⟨hit, hhit, heq | heq⟩ := h <;> cases heq
    · exact .inl ⟨hnew, hhits hit hhit⟩
    · exact .inl ⟨hhits hit hhit, hnew⟩
  | _ => exact h.elim

theorem calm_write [Field F] [LinearOrder F] {spec : EmbeddingSpec F} {t : Caller F} {w : World F}
    (hw : w.Sound spec) (htick : ¬ t.isTick)
    (hn : t.namesOwn w.db) (hc : w.db.Calm t.user) {wr : Write F} (hmay : t.mayWrite spec w wr) {a : wr.Res} {db : Db F}
    (h : wr.apply w.db = .ok (a, db)) : db.Calm t.user := by
  refine ⟨Write.keyed hc.keyed h, Write.indexed hc.keyed hc.indexed h, Write.joined hc.joined h, fun e he hsource => ?_⟩
  have hframe := frame_write hw htick hn.not_meddles hmay h
  rw [hframe.others_eq] at hsource ⊢
  rcases Write.edges h e he with ⟨e₀, he₀, hs, ht⟩ | hnew
  · rw [← ht]
    exact hc.unreached e₀ he₀ (by rwa [hs])
  · -- a new edge starts at no memory of another user
    rw [(hn.joins hw (joins_of_mayWrite hmay hnew)).1] at hsource
    cases hsource

theorem calm_exec [Field F] [LinearOrder F] {spec : EmbeddingSpec F} (bm25 : Bm25 F) {t : Caller F} {w : World F}
    {c : Cmd F} (hw : w.Sound spec)
    (htick : ¬ t.isTick) (hmay : t.may spec w c) (hn : t.namesOwn w.db) (hc : w.db.Calm t.user) :
    t.namesOwn (exec bm25 c w).2.db ∧ (exec bm25 c w).2.db.Calm t.user := by
  constructor
  · unfold Caller.namesOwn
    rw [(frame_exec bm25 hw htick hn.not_meddles hmay).others_eq]
    exact hn
  · refine exec_keeps (P := fun db => db.Calm t.user) bm25 hc (fun wr a db hwr happly => ?_) fun llm pairs hres => ?_
    · cases hwr
      exact calm_write hw htick hn hc hmay happly
    · cases hres
      exact absurd hmay htick

/-! ## Two worlds the caller cannot tell apart -/

/-- No statement fails below SQLite, no call of the provider fails. -/
structure World.Quiet (w : World F) : Prop where
  sql : ∀ n, w.oracle.sqlFault n = false
  provider : ∀ n, w.oracle.providerFault n = false

structure Twin (t : Caller F) (w w' : World F) : Prop where
  same : w.db.SameFor t.user w'.db
  oracle : w'.oracle = w.oracle
  quiet : w.Quiet
  names : t.namesOwn w.db ∧ t.namesOwn w'.db
  calm : w.db.Calm t.user ∧ w'.db.Calm t.user

theorem Twin.quiet' {t : Caller F} {w w' : World F} (h : Twin t w w') : w'.Quiet := by
  refine ⟨?_, ?_⟩
  · rw [h.oracle]
    exact h.quiet.sql
  · rw [h.oracle]
    exact h.quiet.provider

theorem World.Quiet.nextSql {w : World F} (h : w.Quiet) : w.oracle.nextSql = w.oracle := by
  have hstill : (fun n => w.oracle.sqlFault (n + 1)) = w.oracle.sqlFault := by
    funext n
    rw [h.sql, h.sql]
  unfold Oracle.nextSql
  rw [hstill]

theorem World.Quiet.nextProvider {w : World F} (h : w.Quiet) : w.oracle.nextProvider = w.oracle := by
  have hstill : (fun n => w.oracle.providerFault (n + 1)) = w.oracle.providerFault := by
    funext n
    rw [h.provider, h.provider]
  unfold Oracle.nextProvider
  rw [hstill]

theorem World.Quiet.answer {w : World F} (h : w.Quiet) (db : Db F) : w.answer db = { w with db := db } := by
  unfold World.answer
  rw [h.nextSql]

variable [Field F] [LinearOrder F]

theorem World.Quiet.reads {w : World F} (h : w.Quiet) (bm25 : Bm25 F) {ε α : Type} {p : Prog (Cmd F) Cmd.Res ε α}
    (hp : p.Only Cmd.reads) : (p.run (exec bm25) w).2 = w := by
  refine hp.run_keeps (exec bm25) (J := fun s => s = w) (fun c s hc hs => ?_) rfl
  subst hs
  cases c with
  | query q => exact h.answer s.db
  | _ => exact hc.elim

/-! ## Commands -/

section
variable {spec : EmbeddingSpec F} {bm25 : Bm25 F} {t : Caller F} {w w' : World F}

theorem Twin.after (h : Twin t w w') (hw : w.Sound spec) (hw' : w'.Sound spec) (htick : ¬ t.isTick) {c : Cmd F}
    (hall : t.may spec w c) (hall' : t.may spec w' c) (hsame : (exec bm25 c w).2.db.SameFor t.user (exec bm25 c w').2.db)
    (horacle : (exec bm25 c w').2.oracle = (exec bm25 c w).2.oracle) (hquiet : (exec bm25 c w).2.Quiet) :
    Twin t (exec bm25 c w).2 (exec bm25 c w').2 := by
  obtain ⟨hn, hc⟩ := calm_exec bm25 hw htick hall h.names.1 h.calm.1
  obtain ⟨hn', hc'⟩ := calm_exec bm25 hw' htick hall' h.names.2 h.calm.2
  exact ⟨hsame, horacle, hquiet, ⟨hn, hn'⟩, hc, hc'⟩

def Cmd.personal (user : String) : Cmd F → Prop
  | .query q => q.personal user
  | .write _ | .resolveConflicts .. => False
  | _ => True

theorem twin_personal (hfixed : bm25.Fixed) (h : Twin t w w') (hw : w.Sound spec) (hw' : w'.Sound spec) (htick : ¬ t.isTick)
    {c : Cmd F} (hc : c.personal t.user) (hall : t.may spec w c) (hall' : t.may spec w' c) :
    (exec bm25 c w).1 = (exec bm25 c w').1 ∧ Twin t (exec bm25 c w).2 (exec bm25 c w').2 := by
  cases c with
  | query q =>
    refine ⟨?_, h.after hw hw' htick hall hall' h.same ?_ ?_⟩
    · simp only [exec, h.oracle, h.same.eval h.calm.1 h.calm.2 hfixed hc]
    · simp only [exec, World.answer, h.oracle]
    · exact ⟨fun n => h.quiet.sql (n + 1), h.quiet.provider⟩
  | write | resolveConflicts => exact hc.elim
  | provider p text =>
    refine ⟨?_, h.after hw hw' htick hall hall' h.same ?_ ?_⟩
    · simp only [exec, h.oracle]
    · simp only [exec, h.oracle]
    · exact ⟨h.quiet.sql, fun n => h.quiet.provider (n + 1)⟩
  | _ =>
    refine ⟨?_, h.after hw hw' htick hall hall' h.same ?_ ?_⟩
    · simp only [exec, h.oracle]
    · simp only [exec, h.oracle]
    · exact ⟨h.quiet.sql, h.quiet.provider⟩

def Write.ready (user : String) (db : Db F) : Write F → Prop
  | .queueConflicts _ newId hits _ => ∀ id ∈ newId :: hits.map Prod.fst, db.owns user id
  | .insertBridgeToken _ | .tickFloor .. | .tickExpire _ | .supersedeCluster .. => False
  | _ => True

/-- The write takes effect alike, with the same answer, or fails alike. -/
theorem twin_apply (h : Twin t w w') (hw : w.Sound spec) (hw' : w'.Sound spec) (htick : ¬ t.isTick) {wr : Write F}
    (hready : wr.ready t.user w.db) (hall : t.mayWrite spec w wr) (hall' : t.mayWrite spec w' wr) :
    Alike (fun r r' => r.1 = r'.1 ∧ r.2.SameFor t.user r'.2) (wr.apply w.db) (wr.apply w'.db) := by
  have hs := h.same
  cases wr with
  | insertMemory row =>
    -- the id is nobody else's in either world, so both inserts fail or neither does
    have huser : row.userId = t.user := hall.2.1.resolve_left htick
    have hid : w.db.others t.user row.id = false ∧ w'.db.others t.user row.id = false :=
      ⟨(huser ▸ hall.1).not_others hw, (huser ▸ hall'.1).not_others hw'⟩
    exact (hs.insertMemory h.calm.1.joined h.calm.2.joined hid).map fun _ _ hd => ⟨rfl, hd⟩
  | updateMemory userId id upd =>
    obtain ⟨rfl, -⟩ := hall
    exact ⟨hs.matching fun r hr => owned_user hr, hs.updateMemory id upd⟩
  | deleteMemory userId id =>
    cases hall
    exact ⟨hs.matching fun r hr => owned_user hr, hs.deleteMemories fun r hr => owned_user hr⟩
  | deleteMany userId ids =>
    cases hall
    exact ⟨hs.matching fun r hr => ownedAmong_user hr, hs.deleteMemories fun r hr => ownedAmong_user hr⟩
  | clearUser userId =>
    cases hall
    exact ⟨hs.matching fun r hr => beq_iff_eq.mp hr, hs.deleteMemories fun r hr => beq_iff_eq.mp hr⟩
  | applyDirectBoost | updateRetentionScores | migrateToHotMany =>
    cases hall
    refine And.symm (hs.modifyEach ?_ ?_ ?_ _)
    · exact fun _ _ hr => owned_user hr
    · exact fun _ _ => rfl
    · exact fun _ _ => rfl
  | promoteToCore userId ids =>
    cases hall
    refine And.symm (hs.modifyEach ?_ ?_ ?_ ids)
    · exact fun _ _ hr => owned_user (Bool.and_eq_true_iff.mp hr).1
    · exact fun _ _ => rfl
    · exact fun _ _ => rfl
  | markSuperseded userId ids summaryId =>
    cases hall
    exact ⟨hs.matching fun r hr => ownedAmong_user hr, hs.modify _ (fun _ => rfl) fun _ => rfl⟩
  | migrateToCold | migrateToHot | convertToStub =>
    cases hall
    exact ⟨hs.matching fun r hr => owned_user hr, hs.modify _ (fun _ => rfl) fun _ => rfl⟩
  | upsertEdge a b existing bump now kind =>
    have hown := h.names.1.joins hw hall
    have hown' := h.names.2.joins hw' hall'
    refine Alike.map (hs.upsertAssociation h.calm.1.joined h.calm.2.joined ?_ ⟨hown.1, hown'.1⟩ ⟨hown.2, hown'.2⟩) ?_
    · exact fun _ => ⟨rfl, rfl⟩
    · exact fun _ _ hd => ⟨rfl, hd⟩
  | strengthenPairs pairs amount now kind =>
    refine Alike.map (hs.strengthenPairs h.calm.1.joined h.calm.2.joined (fun p hp => ?_) amount now kind) fun _ _ hd => ⟨rfl, hd⟩
    obtain ⟨h₁, h₂⟩ := hall.2 p hp
    obtain ⟨h₁', h₂'⟩ := hall'.2 p hp
    exact ⟨⟨h₁.not_others hw, h₁'.not_others hw'⟩, h₂.not_others hw, h₂'.not_others hw'⟩
  | deleteEdge a b =>
    have hown := h.names.1 a b (.inr (.inl hall))
    have hown' := h.names.2 a b (.inr (.inl hall))
    refine ⟨hs.joining (fun e he hj => ?_) fun e he hj => ?_, hs.deleteEdges _⟩
    · exact inner_of_joins h.calm.1.joined hown.1 hown.2 he hj
    · exact inner_of_joins h.calm.2.joined hown'.1 hown'.2 he hj
  | deleteEdgeBidirectional a b =>
    have hown := h.names.1 a b (.inr (.inr hall))
    have hown' := h.names.2 a b (.inr (.inr hall))
    refine ⟨hs.joining (fun e he hj => ?_) fun e he hj => ?_, hs.deleteEdges _⟩
    · rcases Bool.or_eq_true_iff.mp hj with hj | hj
      · exact inner_of_joins h.calm.1.joined hown.1 hown.2 he hj
      · exact inner_of_joins h.calm.1.joined hown.2 hown.1 he hj
    · rcases Bool.or_eq_true_iff.mp hj with hj | hj
      · exact inner_of_joins h.calm.2.joined hown'.1 hown'.2 he hj
      · exact inner_of_joins h.calm.2.joined hown'.2 hown'.1 he hj
  | cacheInsert row =>
    have hrest : ∀ d : Db F, (d.cacheInsert row).memories = d.memories ∧ (d.cacheInsert row).associations = d.associations := by
      intro d
      unfold Db.cacheInsert
      split
      · exact ⟨rfl, rfl⟩
      · exact ⟨rfl, rfl⟩
    obtain ⟨hm, ha⟩ := hrest w.db
    obtain ⟨hm', ha'⟩ := hrest w'.db
    exact ⟨rfl, hs.congr hm ha hm' ha'⟩
  | queueConflicts userId newId hits now =>
    obtain ⟨rfl, -⟩ := hall
    have hstart : Ready t.user (newId :: hits.map Prod.fst) w.db w'.db :=
      ⟨hs, ⟨h.calm.1.joined, h.calm.2.joined⟩, ⟨h.calm.1.keyed, h.calm.2.keyed⟩, hready⟩
    refine Alike.map (hstart.queueConflicts List.mem_cons_self now fun hit hhit => ?_) fun _ _ hd => ⟨rfl, hd.same⟩
    exact List.mem_cons_of_mem _ (List.mem_map_of_mem hhit)
  | insertBridgeToken | tickFloor | tickExpire | supersedeCluster => exact hready.elim

theorem twin_write (h : Twin t w w') (hw : w.Sound spec) (hw' : w'.Sound spec) (htick : ¬ t.isTick) {wr : Write F}
    (hready : wr.ready t.user w.db) (hall : t.mayWrite spec w wr) (hall' : t.mayWrite spec w' wr) :
    (exec bm25 (.write wr) w).1 = (exec bm25 (.write wr) w').1 ∧
      Twin t (exec bm25 (.write wr) w).2 (exec bm25 (.write wr) w').2 := by
  have happly := twin_apply h hw hw' htick hready hall hall'
  have hquiet : ∀ db : Db F, (w.answer db).Quiet := fun db => ⟨fun n => h.quiet.sql (n + 1), h.quiet.provider⟩
  have horacle : ∀ db db' : Db F, (w'.answer db').oracle = (w.answer db).oracle := fun db db' => by
    simp only [World.answer, h.oracle]
  have hafter : _ → _ → _ → Twin t (exec bm25 (.write wr) w).2 (exec bm25 (.write wr) w').2 :=
    h.after hw hw' htick hall hall'
  simp only [exec, h.oracle, h.quiet.sql 0] at hafter ⊢
  cases hrun : wr.apply w.db with
  | error e =>
    cases hrun' : wr.apply w'.db with
    | error e' =>
      rw [hrun, hrun'] at happly hafter
      cases happly
      exact ⟨rfl, hafter h.same (horacle _ _) (hquiet _)⟩
    | ok r =>
      rw [hrun, hrun'] at happly
      exact happly.elim
  | ok r =>
    cases hrun' : wr.apply w'.db with
    | error e =>
      rw [hrun, hrun'] at happly
      exact happly.elim
    | ok r' =>
      rw [hrun, hrun'] at happly hafter
      exact ⟨congrArg Except.ok happly.1, hafter happly.2 (horacle _ _) (hquiet _)⟩

end

end CognitiveMemory
