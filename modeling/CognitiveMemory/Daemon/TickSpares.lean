import CognitiveMemory.Daemon.CoreFloor
import CognitiveMemory.Daemon.Provenance
import CognitiveMemory.Lib.Wp

/-! Core memories in a Tick. Its first two passes look at the category, the third marks a core memory
superseded before it takes the category away, and the last takes faded hot memories, which a core
memory above its floor is not. -/

namespace CognitiveMemory
open Prog
variable {F : Type} {early : Bool} {db₀ db : Db F}

/-! ## Rows -/

variable [Field F] [LinearOrder F]

/-- What has become of the row of a core memory: it is in its tier still, and core above its floor; or,
once the resolver was at work, superseded. -/
structure MemoryRow.SparedFrom (early : Bool) (r r' : MemoryRow F) : Prop where
  cold : r'.isCold = true → r.isCold = true
  stub : r'.isStub = true → r.isStub = true
  guarded : r'.category = "core" ∧ coreRetentionFloor ≤ r'.retentionFloor ∨ early = false ∧ r'.isSuperseded = true

def Db.Spares (early : Bool) (db₀ : Db F) (r' : MemoryRow F) : Prop :=
  ∀ r ∈ db₀.memories, r.category = "core" → r'.id = r.id → r.SparedFrom early r'

structure Sparing (early : Bool) (db₀ db : Db F) : Prop where
  kept : ∀ r ∈ db₀.memories, ∃ r' ∈ db.memories, r'.id = r.id
  rows : ∀ r' ∈ db.memories, db₀.Spares early r'

def Db.KnowsCore (db₀ : Db F) (rows : List (MemoryRow F)) : Prop :=
  ∀ row ∈ rows, ∀ r ∈ db₀.memories, r.category = "core" → row.id = r.id → row.category = "core"

theorem Sparing.start (hk : db₀.Keyed) (hfloor : db₀.CoreProtected) : Sparing true db₀ db₀ := by
  refine ⟨fun r hr => ⟨r, hr, rfl⟩, fun r' hr' r hr hcore hid => ?_⟩
  obtain rfl := hk.eq_of_id hr' hr hid
  exact ⟨id, id, .inl ⟨hcore, hfloor r' hr' hcore⟩⟩

theorem Sparing.late (h : Sparing early db₀ db) : Sparing false db₀ db := by
  refine ⟨h.kept, fun r' hr' r hr hcore hid => ?_⟩
  obtain ⟨hcold, hstub, hguarded⟩ := h.rows r' hr' r hr hcore hid
  exact ⟨hcold, hstub, hguarded.imp id fun hlate => ⟨rfl, hlate.2⟩⟩

theorem Sparing.knowsCore (h : Sparing true db₀ db) {rows : List (MemoryRow F)} (hrows : ∀ row ∈ rows, row ∈ db.memories) :
    db₀.KnowsCore rows := by
  intro row hrow r hr hcore hid
  rcases (h.rows row (hrows row hrow) r hr hcore hid).guarded with ⟨hcategory, -⟩ | ⟨hearly, -⟩
  · exact hcategory
  · cases hearly

/-! ## Commands -/

def Write.spares (db₀ : Db F) : Write F → Prop
  | .insertMemory _ | .cacheInsert _ => True
  | .tickFloor rows _ => db₀.KnowsCore (rows.map Prod.fst)
  | .tickExpire rows => db₀.KnowsCore rows
  | .supersedeCluster _ _ ids _ => ∀ r ∈ db₀.memories, r.category = "core" → r.id ∉ ids
  | _ => False

def Cmd.spares (early : Bool) (db₀ : Db F) : Cmd F → Prop
  | .write w => w.spares db₀
  | .resolveConflicts .. => early = false
  | _ => True

omit [Field F] [LinearOrder F] in
theorem Cmd.quiet.spares {c : Cmd F} (h : c.quiet) : c.spares early db₀ := by
  cases c with
  | write w =>
    cases w with
    | cacheInsert => trivial
    | _ => exact h.elim
  | resolveConflicts => exact h.elim
  | _ => trivial

theorem spares_tickFloorRow {now : Int} {row : MemoryRow F × Bool}
    (hrow : ∀ r ∈ db₀.memories, r.category = "core" → row.1.id = r.id → row.1.category = "core")
    (h : ∀ r' ∈ db.memories, db₀.Spares early r') : ∀ r' ∈ (db.tickFloorRow now row).memories, db₀.Spares early r' := by
  have hcount : ∀ r' ∈ (db.countAtFloor row).memories, db₀.Spares early r' := by
    unfold Db.countAtFloor
    split
    · exact Db.forall_modify (fun _ _ _ hspared r hr hcore hid => ⟨(hspared r hr hcore hid).cold, (hspared r hr hcore hid).stub,
        (hspared r hr hcore hid).guarded⟩) h
    split
    · exact Db.forall_modify (fun _ _ _ hspared r hr hcore hid => ⟨(hspared r hr hcore hid).cold, (hspared r hr hcore hid).stub,
        (hspared r hr hcore hid).guarded⟩) h
    · exact h
  unfold Db.tickFloorRow
  dsimp only
  by_cases hcold : row.1.category ≠ "core" ∧ 7 ≤ if row.2 then row.1.daysAtFloor + 1 else 0
  · rw [if_pos hcold]
    refine Db.forall_modify (fun r' _ hid' _ r hr hcore hid => ?_) hcount
    -- the row of a core memory is core, and not moved
    have hsame : row.1.id = r.id := (eq_of_beq hid').symm.trans hid
    exact absurd (hrow r hr hcore hsame) hcold.1
  · rw [if_neg hcold]
    exact hcount

theorem spares_tickExpireRow {row : MemoryRow F} (hrow : ∀ r ∈ db₀.memories, r.category = "core" → row.id = r.id →
    row.category = "core")
    (h : ∀ r' ∈ db.memories, db₀.Spares early r') : ∀ r' ∈ (db.tickExpireRow row).memories, db₀.Spares early r' := by
  unfold Db.tickExpireRow
  split
  · exact h
  · rename_i hother
    refine Db.forall_modify (fun r' _ hid' _ r hr hcore hid => ?_) h
    have hsame : row.id = r.id := (eq_of_beq hid').symm.trans hid
    exact absurd (hrow r hr hcore hsame) hother

theorem sparing_write {w : Write F} {a : w.Res} (hw : w.spares db₀) (h : Sparing early db₀ db) {db' : Db F}
    (happly : w.apply db = .ok (a, db')) :
    Sparing early db₀ db' := by
  have hkept : ∀ {d : Db F}, d.memories.map MemoryRow.id = db.memories.map MemoryRow.id → ∀ r ∈ db₀.memories,
      ∃ r' ∈ d.memories, r'.id = r.id := by
    intro d hids r hr
    obtain ⟨r', hr', hid⟩ := h.kept r hr
    have hmem : r'.id ∈ d.memories.map MemoryRow.id := hids ▸ List.mem_map_of_mem hr'
    obtain ⟨r'', hr'', hid'⟩ := List.mem_map.mp hmem
    exact ⟨r'', hr'', hid'.trans hid⟩
  cases w with
  | insertMemory row =>
    obtain ⟨d, hd, hp⟩ := map_ok happly
    cases hp
    rw [insertMemory_ok hd]
    refine ⟨fun r hr => ?_, fun r' hr' => ?_⟩
    · obtain ⟨r', hr', hid⟩ := h.kept r hr
      exact ⟨r', List.mem_append_left _ hr', hid⟩
    · rcases List.mem_append.mp hr' with hr' | hr'
      · exact h.rows r' hr'
      · -- the summary has an id of its own
        intro r hr _ hid
        obtain ⟨r₁, hr₁, hid₁⟩ := h.kept r hr
        rw [List.mem_singleton.mp hr'] at hid
        exact absurd (hid₁.trans hid.symm) (insertMemory_fresh hd r₁ hr₁)
  | cacheInsert row =>
    have hsame : db'.memories = db.memories := by
      cases happly
      unfold Db.cacheInsert
      split <;> rfl
    refine ⟨hkept (by rw [hsame]), ?_⟩
    rw [hsame]
    exact h.rows
  | tickFloor rows now =>
    refine ⟨hkept (Write.follows (w := .tickFloor rows now) id happly).ids, ?_⟩
    cases happly
    refine List.foldlRecOn rows _ (motive := fun d : Db F => ∀ r' ∈ d.memories, db₀.Spares early r') h.rows
        fun d hd row hrow => ?_
    exact spares_tickFloorRow (hw row.1 (List.mem_map_of_mem hrow)) hd
  | tickExpire rows =>
    refine ⟨hkept (Write.follows (w := .tickExpire rows) id happly).ids, ?_⟩
    cases happly
    refine List.foldlRecOn rows _ (motive := fun d : Db F => ∀ r' ∈ d.memories, db₀.Spares early r') h.rows
        fun d hd row hrow => ?_
    exact spares_tickExpireRow (hw row hrow) hd
  | supersedeCluster user summaryId ids now =>
    refine ⟨hkept (Write.follows (w := .supersedeCluster user summaryId ids now) id happly).ids, ?_⟩
    cases happly
    show ∀ r' ∈ (db.modifyEach (owned user) _ ids).1.memories, _
    rw [modifyEach_fst]
    refine List.foldlRecOn ids _ (motive := fun d : Db F => ∀ r' ∈ d.memories, db₀.Spares early r') h.rows fun d hd id hid => ?_
    refine Db.forall_modify (fun r' _ howned _ r hr hcore hsame => ?_) hd
    simp only [owned, Bool.and_eq_true, beq_iff_eq] at howned
    have hmarked : r'.id = id := howned.2
    have hcluster : r.id = id := hsame.symm.trans hmarked
    exact absurd hid (hcluster ▸ hw r hr hcore)
  | _ => exact hw.elim

theorem sparing_resolve {llm : Bool} {answers : ℕ → String → Except String String} {pairs : List ConflictPair}
    (h : Sparing false db₀ db) : Sparing false db₀ (pairs.foldl (Resolving.pair llm answers) ⟨db, 0, 0⟩).db := by
  constructor
  · intro r hr
    obtain ⟨r', hr', hid⟩ := h.kept r hr
    have hids := (resolving_effects llm answers pairs ⟨db, 0, 0⟩).1.ids
    have hmem : r'.id ∈ (pairs.foldl (Resolving.pair llm answers) ⟨db, 0, 0⟩).db.memories.map MemoryRow.id :=
      hids ▸ List.mem_map_of_mem hr'
    obtain ⟨r'', hr'', hid'⟩ := List.mem_map.mp hmem
    exact ⟨r'', hr'', hid'.trans hid⟩
  · refine resolving_forall_rows (fun r' winner hr' r hr hcore hid => ?_) (fun r' hmarked hr' r hr hcore hid => ?_)
      (fun n e r' _ _ hr' r hr hcore hid => ?_) llm answers pairs h.rows
    · have hspared := hr' r hr hcore hid
      exact ⟨hspared.cold, hspared.stub, .inr ⟨rfl, rfl⟩⟩
    · have hspared := hr' r hr hcore hid
      exact ⟨hspared.cold, hspared.stub, .inr ⟨rfl, hmarked⟩⟩
    · have hspared := hr' r hr hcore hid
      exact ⟨hspared.cold, hspared.stub, hspared.guarded⟩

theorem sparing_exec (bm25 : Bm25 F) {c : Cmd F} {w : World F} (hc : c.spares early db₀) (h : Sparing early db₀ w.db) :
    Sparing early db₀ (exec bm25 c w).2.db := by
  refine exec_keeps bm25 h ?_ fun llm pairs heq => ?_
  · rintro wr a db' rfl happly
    exact sparing_write hc h happly
  · subst heq
    obtain rfl : early = false := hc
    exact sparing_resolve h

/-! ## Passes -/

section
variable {bm25 : Bm25 F} {app : AppState F} {w : World F} {userId : String} {now : Int}

theorem stays_sparing {α : Type} {p : HandlerM F α} (hp : p.Only (Cmd.spares early db₀)) (h : Sparing early db₀ w.db) :
    p.stays (exec bm25) (fun w' => Sparing early db₀ w'.db) (fun _ w' => Sparing early db₀ w'.db) w :=
  hp.stays (fun _ _ hc h => sparing_exec bm25 hc h) h

theorem stays_read {q : Query F} (h : Sparing early db₀ w.db) : (sqlx (query q) : HandlerM F q.Res).stays (exec bm25)
    (fun w' => Sparing early db₀ w'.db) (fun r w' => Sparing early db₀ w'.db ∧ ∀ a, r = .ok a → q.eval bm25 w'.db = .ok a) w := by
  refine ⟨h, ?_⟩
  show ((Prog.ofExcept (if w.oracle.sqlFault 0 then .error .io else q.eval bm25 w.db)).mapError _).stays _ _ _ (w.answer w.db)
  cases hfault : w.oracle.sqlFault 0 with
  | true => exact ⟨h, nofun⟩
  | false =>
    rw [if_neg Bool.false_ne_true]
    cases heval : q.eval bm25 w.db with
    | error e => exact ⟨h, nofun⟩
    | ok a =>
      refine ⟨h, fun a' ha' => ?_⟩
      cases ha'
      exact heval

def Db.Others (db₀ : Db F) (mems : List (MemoryRow F)) : Prop :=
  ∀ m ∈ mems, ∀ r ∈ db₀.memories, r.category = "core" → r.id ≠ m.id

theorem only_compressCluster {group : List (MemoryRow F)} (hgroup : db₀.Others group) :
    (compressCluster app userId group now).Only (Cmd.spares false db₀) := by
  have hmarked : ∀ summaryId, (Write.supersedeCluster userId summaryId (group.map MemoryRow.id) now).spares db₀ := by
    intro summaryId r hr hcore hid
    obtain ⟨m, hm, hsame⟩ := List.mem_map.mp hid
    exact hgroup m hm r hr hcore hsame.symm
  refine only_bind (P := Cmd.spares false db₀) ⟨trivial, fun _ => trivial⟩ fun answer => ?_
  refine only_bind (only_mapError (only_ofExcept _)) fun text => ?_
  refine only_bind (only_embed.imp fun _ => Cmd.quiet.spares) fun vector => ?_
  refine only_bind (only_freshMemoryId trivial) fun id => ?_
  refine only_bind (only_mapError (only_write trivial)) fun _ => ?_
  exact only_bind (only_mapError (only_write (hmarked id))) fun _ => trivial

variable [Elementary F]

theorem only_consolidateCategory (mems : List (MemoryRow F)) (hmems : db₀.Others mems) (used : List String) (created : ℕ) :
    (consolidateCategory app userId now mems used created).Only (Cmd.spares false db₀) := by
  induction mems generalizing used created with
  | nil => trivial
  | cons head rest ih =>
    obtain ⟨hhead, hrest⟩ := List.forall_mem_cons.mp hmems
    rw [consolidateCategory]
    split
    · trivial
    split
    · exact ih hrest used created
    dsimp only
    split
    · obtain ⟨picks, hgroup, hsub, -⟩ := growGroup_picks (decodeEmbedding head) used rest [head]
      refine only_bind (only_compressCluster ?_) fun _ => ih hrest _ _
      rw [hgroup]
      exact List.forall_mem_cons.mpr ⟨hhead, fun m hm => hrest m (hsub.subset hm)⟩
    · exact ih hrest used created

theorem only_consolidateCategories {fading : List (MemoryRow F)} (hfading : db₀.Others fading)
    (categories : List String) (created : ℕ) :
    (consolidateCategories app userId now fading categories created).Only (Cmd.spares false db₀) := by
  induction categories generalizing created with
  | nil => trivial
  | cons category categories ih =>
    refine only_bind ?_ fun created' => ih created'
    unfold consolidateMembers
    split
    · trivial
    · exact only_consolidateCategory _ (fun m hm => hfading m (List.mem_filter.mp hm).1) _ _

section

variable [IsStrictOrderedRing F]

theorem not_fading {r : MemoryRow F} (hstub : r.isStub = false) (hfloor : coreRetentionFloor ≤ r.retentionFloor) :
    ¬ computeCurrentRetention r now app.lifecycle < 20 / 100 := by
  have hlow : (20 / 100 : F) ≤ coreRetentionFloor := by norm_num [coreRetentionFloor]
  have hone : (20 / 100 : F) ≤ 1 := by norm_num
  refine not_lt.mpr ?_
  unfold computeCurrentRetention computeRetention candidateToState SearchCandidate.ofRow
  dsimp only
  rw [hstub, if_neg Bool.false_ne_true]
  split
  · exact hone
  · exact hlow.trans (hfloor.trans (le_max_right _ _))

/-- A hot memory that fades is no core memory, nor was it one when the Tick began. -/
theorem Sparing.others (h : Sparing early db₀ w.db) {rows : List (MemoryRow F)}
    (hrows : (Query.hotEmbedded userId).eval bm25 w.db = .ok rows) :
    db₀.Others (rows.filter fun r => decide (computeCurrentRetention r now app.lifecycle < 20 / 100)) := by
  intro m hm r hr hcore hid
  obtain ⟨hrow, hfades⟩ := List.mem_filter.mp hm
  cases hrows
  obtain ⟨hmem, hhot⟩ := List.mem_filter.mp hrow
  simp only [MemoryRow.hot, Bool.and_eq_true, Bool.not_eq_true'] at hhot
  rcases (h.rows m hmem r hr hcore hid.symm).guarded with ⟨-, hfloor⟩ | ⟨-, hsuperseded⟩
  · exact not_fading (by tauto) hfloor (of_decide_eq_true hfades)
  · have hlive : m.isSuperseded = false := by tauto
    rw [hlive] at hsuperseded
    cases hsuperseded

theorem stays_consolidateUsers (users : List String) (created : ℕ) (h : Sparing false db₀ w.db) :
    (consolidateUsers app now users created).stays (exec bm25) (fun w' => Sparing false db₀ w'.db)
      (fun _ w' => Sparing false db₀ w'.db) w := by
  induction users generalizing created w with
  | nil => exact h
  | cons userId users ih =>
    rw [consolidateUsers]
    split
    · exact h
    refine .seq (stays_read h) (fun rows w₁ hread => ?_) fun e w₁ hread => hread.1
    have hothers : db₀.Others (rows.filter fun r => decide (computeCurrentRetention r now app.lifecycle < 20 / 100)) :=
      hread.1.others (hread.2 rows rfl)
    let fadingRows := rows.filter fun r => decide (computeCurrentRetention r now app.lifecycle < 20 / 100)
    have horder : (Prog.call (Cmd.order (fadingRows.map MemoryRow.category).dedup) : HandlerM F (List String)).Only
        (Cmd.spares false db₀) := ⟨trivial, fun _ => trivial⟩
    refine .seq (stays_sparing horder hread.1) (fun categories w₂ hw₂ => ?_) fun e w₂ hw₂ => hw₂
    exact .seq (stays_sparing (only_consolidateCategories hothers categories created) hw₂)
        (fun created' w₃ hw₃ => ih created' hw₃)
      fun e w₃ hw₃ => hw₃

theorem stays_handleTick (h : Sparing true db₀ w.db) : (handleTick app).stays (exec bm25) (fun w' => Sparing false db₀ w'.db)
    (fun _ w' => Sparing false db₀ w'.db) w := by
  have hread : ∀ {q : Query F} {w : World F}, Sparing true db₀ w.db → (sqlx (query q) : HandlerM F q.Res).stays (exec bm25)
      (fun w' => Sparing false db₀ w'.db) (fun r w' => Sparing true db₀ w'.db ∧ ∀ a, r = .ok a → q.eval bm25 w'.db = .ok a) w :=
    fun h => (stays_read h).imp (fun _ h => h.late) fun _ _ h => h
  have hwrite : ∀ {wr : Write F} {w : World F}, wr.spares db₀ → Sparing true db₀ w.db →
      (sqlx (write wr) : HandlerM F wr.Res).stays
      (exec bm25) (fun w' => Sparing false db₀ w'.db) (fun _ w' => Sparing true db₀ w'.db) w :=
    fun hw h => (stays_sparing (only_mapError (only_write hw)) h).imp (fun _ h => h.late) fun _ _ h => h
  have hclock : (unixNow : HandlerM F Int).Only (Cmd.spares true db₀) := only_clock trivial
  unfold handleTick
  refine .seq ((stays_sparing hclock h).imp (fun _ h => h.late) fun _ _ h => h) (fun now w₁ h₁ => ?_) fun e w₁ h₁ => h₁.late
  refine .seq (hread h₁) (fun hotRows w₂ h₂ => ?_) fun e w₂ h₂ => h₂.1.late
  -- a core memory is still core in the row that pass 1 has read
  have hhot : db₀.KnowsCore ((hotRows.map fun r => (r, atFloor app now r)).map Prod.fst) := by
    rw [List.map_map]
    refine h₂.1.knowsCore fun row hrow => ?_
    have heval := h₂.2 hotRows rfl
    cases heval
    simp only [Function.comp_def, List.map_id'] at hrow
    exact (List.mem_filter.mp hrow).1
  refine .seq (hwrite hhot h₂.1) (fun _ w₃ h₃ => ?_) fun e w₃ h₃ => h₃.late
  refine .seq (hread h₃) (fun stale w₄ h₄ => ?_) fun e w₄ h₄ => h₄.1.late
  have hstale : db₀.KnowsCore stale := by
    refine h₄.1.knowsCore fun row hrow => ?_
    have heval := h₄.2 stale rfl
    cases heval
    exact (List.mem_filter.mp hrow).1
  refine .seq (hwrite hstale h₄.1) (fun _ w₅ h₅ => ?_) fun e w₅ h₅ => h₅.late
  have hresolve : (resolveConflicts app).Only (Cmd.spares false db₀) := by
    refine only_bind (only_mapError (only_query trivial)) fun pairs => ?_
    split
    · trivial
    · exact only_mapError ⟨rfl, fun _ => only_ofExcept _⟩
  refine .seq (stays_sparing hresolve h₅.late) (fun _ w₆ h₆ => ?_) fun e w₆ h₆ => h₆
  have hconsolidate : (consolidateAtTick app now).stays (exec bm25) (fun w' => Sparing false db₀ w'.db)
      (fun _ w' => Sparing false db₀ w'.db) w₆ := by
    unfold consolidateAtTick
    split
    · exact h₆
    · exact .seq (stays_read h₆) (fun users w₇ h₇ => stays_consolidateUsers users 0 h₇.1) fun e w₇ h₇ => h₇.1
  exact .seq hconsolidate (fun _ w₇ h₇ => h₇) fun e w₇ h₇ => h₇

/-- However many of its commands a Tick has issued, every core memory is in the tier it was in, and no
stub unless it was one. -/
theorem tick_spares_core (hk : w.db.Keyed) (hfloor : w.db.CoreProtected) (n : ℕ) {r : MemoryRow F} (hr : r ∈ w.db.memories)
    (hcore : r.category = "core") :
    (∃ r' ∈ ((handleTick app).runFor (exec bm25) n w).db.memories, r'.id = r.id) ∧
      ∀ r' ∈ ((handleTick app).runFor (exec bm25) n w).db.memories, r'.id = r.id →
        (r'.isCold = true → r.isCold = true) ∧ (r'.isStub = true → r.isStub = true) := by
  have hstart : Sparing true w.db w.db := .start hk hfloor
  have hafter : Sparing false w.db ((handleTick app).runFor (exec bm25) n w).db := (stays_handleTick hstart).runFor hstart.late n
  refine ⟨hafter.kept r hr, fun r' hr' hid => ?_⟩
  have hspared := hafter.rows r' hr' r hr hcore hid
  exact ⟨hspared.cold, hspared.stub⟩

end
end

/-! ### A core note on tea that loses to a newer one -/

def coreTea : MemoryRow ℚ :=
  { MemoryRow.newMinimal "mem_a" "alice" "green tea" "core" "fact" 0 with
    embedding := some [1]
    retentionFloor := 6 / 10 }

def contested : World ℚ :=
  { World.quiet with
    db := { Db.empty with
      memories := [coreTea, .newMinimal "mem_b" "alice" "black tea" "semantic" "fact" 1]
      conflictQueue := [⟨1, "alice", "mem_b", "mem_a", 9 / 10, 1⟩]
      conflictSeq := 1 } }

theorem tick_spares_coreTea :
    (∃ r' ∈ ((handleTick AppState.flat).runFor (exec Bm25.none) 9 contested).db.memories, r'.id = coreTea.id) ∧
      ∀ r' ∈ ((handleTick AppState.flat).runFor (exec Bm25.none) 9 contested).db.memories, r'.id = coreTea.id →
        (r'.isCold = true → coreTea.isCold = true) ∧ (r'.isStub = true → coreTea.isStub = true) := by
  have hk : contested.db.Keyed := by
    unfold Db.Keyed
    decide
  have hfloor : contested.db.CoreProtected := by
    unfold Db.CoreProtected MemoryRow.Protected
    decide +kernel
  exact tick_spares_core hk hfloor 9 List.mem_cons_self rfl

/-- It is taken out of the core on the way. -/
example : (((handleTick AppState.flat).runFor (exec Bm25.none) 9 contested).db.memories.map fun r => (r.id, r.category)) =
    [("mem_a", "semantic"), ("mem_b", "semantic")] := by decide +kernel

end CognitiveMemory
