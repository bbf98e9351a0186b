import CognitiveMemory.Daemon.Thawing
import CognitiveMemory.Daemon.Tiers
import CognitiveMemory.Lib.Streak

/-! The count of Ticks at the floor: `days_at_floor` in every run of requests, one after the other,
and the move to the cold tier that pass 1 of a Tick makes of it. -/

namespace CognitiveMemory
open Prog Streak
variable {F : Type}

/-! ## Pass 1, and the rest of a Tick -/

section

variable [Field F] [LinearOrder F] [Elementary F]

/-- Pass 1 of a Tick: its time, and how many memories it found at their floor. -/
def floorPass (app : AppState F) : HandlerM F (Int × ℕ) := do
  let now ← unixNow
  let hotRows : List (MemoryRow F) ← sqlx (query .hotRows)
  let rows := hotRows.map fun r => (r, atFloor app now r)
  let _ ← sqlx (write (.tickFloor rows now))
  Pure.pure (now, (rows.filter Prod.snd).length)

def laterPasses (app : AppState F) (now : Int) (decayed : ℕ) : HandlerM F (ResponseData F) := do
  let staleCold : List (MemoryRow F) ← sqlx (query (.staleCold (now - 180 * 86400)))
  let _ ← sqlx (write (.tickExpire staleCold))
  let _ ← resolveConflicts app
  let _ ← consolidateAtTick app now
  Pure.pure (.tick decayed)

theorem handleTick_passes (app : AppState F) : handleTick app = (floorPass app).bind fun p => laterPasses app p.1 p.2 := by
  simp only [handleTick, floorPass, laterPasses, bind_eq, pure_eq, bind_assoc', pure_bind']

/-! ## What is to hold -/

/-- The time of a Tick whose pass 1 goes through, whatever becomes of the others. -/
def Caller.countsAt (bm25 : Bm25 F) (t : Caller F) (w : World F) : Option Int :=
  match t.request with
  | .lifecycle (.tick _) => match ((floorPass t.app).run (exec bm25) w).1 with
    | .ok (now, _) => some now
    | .error _ => none
  | _ => none

def Caller.migratesToHot (bm25 : Bm25 F) (t : Caller F) (w : World F) (id : String) : Bool :=
  match t.request with
  | .lifecycle (.migrateToHot _ id') => id' == id && match ((handleRequest t.app t.request t.user).run (exec bm25) w).1 with
    | .ok (.affected n) => n == 1
    | _ => false
  | _ => false

def Caller.autoRestores (bm25 : Bm25 F) (t : Caller F) (w : World F) (id : String) : Bool :=
  (w.db.memories.any fun r => r.id == id && r.isCold) && (t.serve bm25 w).db.memories.any fun r => r.id == id && !r.isCold

/-- What a request means to the count of a memory: a Tick that finds it is a round, which hits where the
retention sits on a positive floor. -/
def Caller.marks (bm25 : Bm25 F) (t : Caller F) (w : World F) (id : String) : Mark :=
  match w.db.memories.find? (·.id == id) with
  | none => .anew -- it is not there yet
  | some r => match t.countsAt bm25 w, r.hot with
    | some now, true => .round (atFloor t.app now r)
    | _, _ => if t.migratesToHot bm25 w id || t.autoRestores bm25 w id then .anew else .other

def World.after (bm25 : Bm25 F) (w₀ : World F) : List (Caller F) → World F
  | [] => w₀
  | t :: ts => t.serve bm25 (World.after bm25 w₀ ts)

/-- What these requests meant to the count of a memory. -/
def World.history (bm25 : Bm25 F) (w₀ : World F) (id : String) : List (Caller F) → List Mark
  | [] => []
  | t :: ts => t.marks bm25 (World.after bm25 w₀ ts) id :: World.history bm25 w₀ id ts

end

/-! ## Pass 1 on one row -/

def MemoryRow.counted (found : MemoryRow F × Bool) (r : MemoryRow F) : MemoryRow F :=
  { r with daysAtFloor := if found.2 then r.daysAtFloor + 1 else if 0 < found.1.daysAtFloor then 0 else r.daysAtFloor }

def MemoryRow.frozen (now : Int) (r : MemoryRow F) : MemoryRow F := { r with isCold := true, coldSince := some now }

def MemoryRow.ticked (now : Int) (found : MemoryRow F × Bool) (r : MemoryRow F) : MemoryRow F :=
  if found.1.category ≠ "core" ∧ 7 ≤ (if found.2 then found.1.daysAtFloor + 1 else 0) then (r.counted found).frozen now
  else r.counted found

@[simp] theorem ticked_id (now : Int) (found : MemoryRow F × Bool) (r : MemoryRow F) : (r.ticked now found).id = r.id := by
  unfold MemoryRow.ticked
  rw [apply_ite MemoryRow.id]
  exact ite_self _

theorem ticked_days (now : Int) (r : MemoryRow F) (b : Bool) : (r.ticked now (r, b)).daysAtFloor =
    if b then r.daysAtFloor + 1 else if 0 < r.daysAtFloor then 0 else r.daysAtFloor := by
  unfold MemoryRow.ticked
  rw [apply_ite MemoryRow.daysAtFloor]
  exact ite_self _

theorem ticked_cold (now : Int) (r : MemoryRow F) (b : Bool) : (r.ticked now (r, b)).isCold = true ↔
    r.isCold = true ∨ r.category ≠ "core" ∧ 7 ≤ if b then r.daysAtFloor + 1 else 0 := by
  unfold MemoryRow.ticked
  by_cases hcold : r.category ≠ "core" ∧ 7 ≤ if b then r.daysAtFloor + 1 else 0
  · rw [if_pos hcold]
    exact iff_of_true rfl (.inr hcold)
  · rw [if_neg hcold]
    exact (or_iff_left hcold).symm

theorem countAtFloor_memories (db : Db F) (found : MemoryRow F × Bool) : (db.countAtFloor found).memories =
    db.memories.map fun r => if r.id == found.1.id then r.counted found else r := by
  unfold Db.countAtFloor MemoryRow.counted
  split_ifs
  · rfl
  · rfl
  · simp

theorem tickFloorRow_memories (now : Int) (db : Db F) (found : MemoryRow F × Bool) : (db.tickFloorRow now found).memories =
    db.memories.map fun r => if r.id == found.1.id then r.ticked now found else r := by
  unfold Db.tickFloorRow
  dsimp only
  by_cases hcold : found.1.category ≠ "core" ∧ 7 ≤ if found.2 then found.1.daysAtFloor + 1 else 0
  · have hticked : ∀ r : MemoryRow F, r.ticked now found = (r.counted found).frozen now :=
      fun r => if_pos hcold
    rw [if_pos hcold]
    show (db.countAtFloor found).memories.map _ = _
    rw [countAtFloor_memories, List.map_map]
    refine List.map_congr_left fun r _ => ?_
    rw [hticked, Function.comp_apply]
    by_cases hid : (r.id == found.1.id) = true
    · have hid' : ((r.counted found).id == found.1.id) = true := hid
      rw [if_pos hid, if_pos hid, if_pos hid']
      rfl
    · rw [if_neg hid, if_neg hid, if_neg hid]
  · have hticked : ∀ r : MemoryRow F, r.ticked now found = r.counted found := fun r => if_neg hcold
    rw [if_neg hcold, countAtFloor_memories]
    simp only [hticked]

theorem tickFloor_memories {now : Int} {rows : List (MemoryRow F × Bool)} (hrows : (rows.map fun x => x.1.id).Nodup)
    (db : Db F) :
    (rows.foldl (Db.tickFloorRow now) db).memories =
      db.memories.map fun r => ((rows.find? fun x => r.id == x.1.id).map fun x => r.ticked now x).getD r := by
  induction rows generalizing db with
  | nil => simp
  | cons x rows ih =>
    obtain ⟨hx, hrows⟩ := List.nodup_cons.mp hrows
    rw [List.foldl_cons, ih hrows, tickFloorRow_memories, List.map_map]
    refine List.map_congr_left fun r _ => ?_
    rw [Function.comp_apply, List.find?_cons]
    by_cases hid : (r.id == x.1.id) = true
    · -- no later entry is about this row
      have hrest : (rows.find? fun y => (r.ticked now x).id == y.1.id) = none := by
        refine List.find?_eq_none.mpr fun y hy heq => hx ?_
        rw [ticked_id, beq_iff_eq] at heq
        exact List.mem_map.mpr ⟨y, hy, heq.symm.trans (beq_iff_eq.mp hid)⟩
      rw [if_pos hid, hrest, hid]
      rfl
    · have hid' : (r.id == x.1.id) = false := by simpa using hid
      rw [if_neg hid, hid']

section
variable {bm25 : Bm25 F} {w : World F} {app : AppState F}

/-- Pass 1 counts the hot memories, each by its row as the Tick found it; or nothing. -/
theorem ends_floorPass [Field F] [LinearOrder F] [Elementary F] (hk : w.db.Keyed) :
    (floorPass app).ends (exec bm25) (fun answer w' => match answer with
    | .ok (now, _) => w'.db.memories = w.db.memories.map fun r => if r.hot then r.ticked now (r, atFloor app now r) else r
    | .error _ => w'.db.memories = w.db.memories) w := by
  have hclock : (unixNow : HandlerM F Int).ends (exec bm25) (fun _ w' => w'.db = w.db) w := rfl
  refine .seq hclock (fun now w₁ h₁ => ?_) fun e w₁ h₁ => congrArg Db.memories h₁
  have hread : (sqlx (query .hotRows) : HandlerM F _).ends (exec bm25) (fun answer w' => w'.db = w.db ∧
      ∀ rows, answer = .ok rows → rows = w.db.memories.filter MemoryRow.hot) w₁ := by
    refine .mapError ((ends_query (q := .hotRows)).imp ?_)
    rintro answer w₂ ⟨rfl, rfl⟩
    refine ⟨h₁, fun rows hrows => ?_⟩
    rw [← h₁]
    by_cases hfault : w₁.oracle.sqlFault 0 = true
    · rw [if_pos hfault] at hrows
      cases hrows
    · rw [if_neg hfault] at hrows
      exact (Except.ok.inj hrows).symm
  refine .seq hread (fun hotRows w₂ h₂ => ?_) fun e w₂ h₂ => congrArg Db.memories h₂.1
  obtain rfl := h₂.2 hotRows rfl
  refine .seq (P := fun answer w' => match answer with
    | .ok _ => w'.db.memories = w.db.memories.map fun r => if r.hot then r.ticked now (r, atFloor app now r) else r
    | .error _ => w'.db.memories = w.db.memories) (.mapError (ends_write.imp ?_)) (fun _ w₃ h₃ => h₃) fun e w₃ h₃ => h₃
  rintro (e | a) w₃ h₃
  · exact congrArg Db.memories (h₃.1.trans h₂.1)
  · obtain ⟨-, happly⟩ := h₃
    obtain ⟨-, hdb⟩ := Prod.mk.inj (Except.ok.inj happly)
    have hnodup : ((w.db.memories.filter MemoryRow.hot).map MemoryRow.id).Nodup := hk.sublist (List.filter_sublist.map _)
    have hrows : (((w.db.memories.filter MemoryRow.hot).map fun r => (r, atFloor app now r)).map fun x => x.1.id).Nodup := by
      rwa [List.map_map]
    show w₃.db.memories = _
    rw [← hdb, tickFloor_memories hrows, h₂.1]
    refine List.map_congr_left fun r hr => ?_
    rw [List.find?_map]
    -- the statement finds a row by its id, and ids are unique
    cases hfind : (w.db.memories.filter MemoryRow.hot).find?
      ((fun x : MemoryRow F × Bool => r.id == x.1.id) ∘ fun r => (r, atFloor app now r)) with
    | none =>
      have hcool : ¬ r.hot = true :=
          fun hhot => List.find?_eq_none.mp hfind r (List.mem_filter.mpr ⟨hr, hhot⟩) (beq_self_eq_true r.id)
      rw [if_neg hcool]
      rfl
    | some r' =>
      obtain ⟨hmem, hhot⟩ := List.mem_filter.mp (List.mem_of_find?_eq_some hfind)
      have hfound : (r.id == r'.id) = true := List.find?_some (p := fun x : MemoryRow F => r.id == x.id) hfind
      have hid : r.id = r'.id := beq_iff_eq.mp hfound
      obtain rfl : r = r' := hk.eq_of_id hr hmem hid
      rw [if_pos hhot]
      rfl

end

/-! ## Statements and the count -/

def MemoryRow.Lasts (r r' : MemoryRow F) : Prop :=
  r'.id = r.id ∧ r'.daysAtFloor = r.daysAtFloor ∧ (r.isCold = true → r'.isCold = true)

def MemoryRow.Returns (r r' : MemoryRow F) : Prop :=
  r'.id = r.id ∧ r.isCold = true ∧ r'.isCold = false ∧ r'.daysAtFloor = 0

def Db.From (R : MemoryRow F → MemoryRow F → Prop) (db₀ db : Db F) : Prop := ∀ r' ∈ db.memories,
  (∃ r ∈ db₀.memories, R r r') ∨ (∀ r ∈ db₀.memories, r.id ≠ r'.id) ∧ r'.daysAtFloor = 0

def Db.Holds (db₀ db : Db F) : Prop := db₀.memories.map MemoryRow.id ⊆ db.memories.map MemoryRow.id

def Write.recounts : Write F → Prop
  | .tickFloor .. | .migrateToHot .. | .migrateToHotMany .. => True
  | _ => False

def Write.deletes : Write F → Prop
  | .deleteMemory .. | .deleteMany .. | .clearUser _ => True
  | _ => False

def Cmd.lasting : Cmd F → Prop
  | .write w => ¬ w.recounts ∧ ¬ w.deletes
  | _ => True

theorem MemoryRow.Lasts.refl (r : MemoryRow F) : r.Lasts r := ⟨rfl, rfl, fun h => h⟩

theorem MemoryRow.Lasts.trans {a b c : MemoryRow F} (h : a.Lasts b) (h' : b.Lasts c) : a.Lasts c :=
  ⟨h'.1.trans h.1, h'.2.1.trans h.2.1, fun hcold => h'.2.2 (h.2.2 hcold)⟩

section
variable [Field F] [LinearOrder F]

theorem lasts_edit {w : Write F} (hw : ¬ w.recounts) {f : MemoryRow F → MemoryRow F} (hf : w.edits f) (r : MemoryRow F) :
    r.Lasts (f r) := by
  cases w with
  | applyDirectBoost | updateRetentionScores | tickExpire =>
    obtain ⟨x, -, rfl⟩ := hf
    exact ⟨rfl, rfl, id⟩
  | migrateToHot | migrateToHotMany | tickFloor => exact absurd trivial hw
  | updateMemory | promoteToCore | markSuperseded | convertToStub | queueConflicts =>
    subst hf
    exact ⟨rfl, rfl, id⟩
  | migrateToCold | supersedeCluster =>
    subst hf
    exact ⟨rfl, rfl, fun _ => rfl⟩
  | _ => exact hf.elim

theorem uncounted_of_derived {t : Caller F} {h : Seen F} {row : MemoryRow F}
    (hd : t.derives h (.write (.insertMemory row))) :
    row.daysAtFloor = 0 := by
  obtain ⟨-, ⟨args, id, vector, now, rfl⟩ | ⟨user, rows, marked, group, id, text, vector, now, -, -, rfl⟩⟩ := hd
  · unfold storedRow
    dsimp only
    split <;> rfl
  · rfl

theorem holds_exec (bm25 : Bm25 F) {c : Cmd F} (hc : c.lasting) {db₀ : Db F} {w : World F} (h : db₀.Holds w.db) :
    db₀.Holds (exec bm25 c w).2.db := by
  refine exec_keeps (P := fun db => db₀.Holds db) bm25 h ?_ fun llm pairs _ => ?_
  · rintro wr a db rfl happly
    by_cases hreshapes : wr.reshapes
    · cases wr with
      | insertMemory row =>
        obtain ⟨d, hd, hp⟩ := map_ok happly
        cases hp
        unfold Db.Holds
        rw [insertMemory_ok hd]
        exact fun id hid => List.map_subset _ (List.subset_append_left _ _) (h hid)
      | deleteMemory | deleteMany | clearUser => exact absurd trivial hc.2
      | _ => exact hreshapes.elim
    · have hids := (Write.edited hreshapes happly).map_eq fun f hf r => edit_id hf r
      unfold Db.Holds
      rwa [hids]
  · have hids := (resolving_effects llm w.oracle.llm pairs ⟨w.db, 0, 0⟩).1.ids
    unfold Db.Holds
    rwa [hids]

theorem from_exec (bm25 : Bm25 F) {t : Caller F} {seen : Seen F} {c : Cmd F} (hd : t.derives seen c) (hc : c.lasting)
    {db₀ : Db F} {w : World F} (hholds : db₀.Holds w.db) (h : db₀.From MemoryRow.Lasts w.db) :
    db₀.From MemoryRow.Lasts (exec bm25 c w).2.db := by
  let P : MemoryRow F → Prop := fun r' =>
    (∃ r ∈ db₀.memories, r.Lasts r') ∨ (∀ r ∈ db₀.memories, r.id ≠ r'.id) ∧ r'.daysAtFloor = 0
  have hlater : ∀ r' r'', r'.Lasts r'' → P r' → P r'' := by
    rintro r' r'' hlasts (⟨r, hr, h⟩ | ⟨hnew, hzero⟩)
    · exact .inl ⟨r, hr, h.trans hlasts⟩
    · exact .inr ⟨fun r hr => hlasts.1 ▸ hnew r hr, hlasts.2.1.trans hzero⟩
  refine exec_keeps (P := fun db => ∀ r' ∈ db.memories, P r') bm25 h ?_ fun llm pairs _ => ?_
  · rintro wr a db rfl happly
    refine Write.forall_rows ?_ (fun user id upd heq r' _ _ hr => hlater r' _ ?_ hr)
        (fun _ f hf r' => hlater r' _ (lasts_edit hc.1 hf r')) h
      happly
    · rintro row rfl
      obtain ⟨d, hinsert, -⟩ := map_ok happly
      refine .inr ⟨fun r hr heq => ?_, uncounted_of_derived hd⟩
      obtain ⟨r', hr', hid⟩ := List.mem_map.mp (hholds (List.mem_map_of_mem hr))
      exact insertMemory_fresh hinsert r' hr' (hid.trans heq)
    · subst heq
      exact lasts_edit (w := .updateMemory user id upd) not_false rfl r'
  · exact resolving_forall_rows (fun r winner hr => hlater _ _ (MemoryRow.Lasts.refl r) hr)
      (fun r _ hr => hlater _ _ (MemoryRow.Lasts.refl r) hr)
        (fun n e r _ _ hr => hlater _ _ (MemoryRow.Lasts.refl r) hr) llm _ pairs h

end

/-! ## Parts of requests -/

def Db.Restored (db₀ db : Db F) : Prop :=
  ∀ r' ∈ db.memories, ∃ r ∈ db₀.memories, r' = r ∨ r.isCold = true ∧ r' = restoreRow r

theorem Db.Restored.of_eq {db₀ db : Db F} (h : db.memories = db₀.memories) : db₀.Restored db :=
  fun r' hr' => ⟨r', h ▸ hr', .inl rfl⟩

theorem Db.Restored.from {db₀ db : Db F} (h : db₀.Restored db) : db₀.From (fun r r' => r.Lasts r' ∨ r.Returns r') db := by
  intro r' hr'
  obtain ⟨r, hr, rfl | ⟨hcold, rfl⟩⟩ := h r' hr'
  · exact .inl ⟨r', hr, .inl (.refl r')⟩
  · exact .inl ⟨r, hr, .inr ⟨rfl, hcold, rfl, rfl⟩⟩

theorem from_of_tiers {db₀ db db' : Db F} (htiers : db'.tiers = db.tiers)
    (h : db₀.From (fun r r' => r.Lasts r' ∨ r.Returns r') db) :
    db₀.From (fun r r' => r.Lasts r' ∨ r.Returns r') db' := by
  intro r'' hr''
  obtain ⟨r', hr', htier⟩ := List.mem_map.mp (htiers ▸ List.mem_map_of_mem hr'' : r''.tier ∈ db.tiers)
  obtain ⟨hid, hcold, -, hdays⟩ : r'.id = r''.id ∧ r'.isCold = r''.isCold ∧ r'.coldSince = r''.coldSince ∧
      r'.daysAtFloor = r''.daysAtFloor := by simpa only [MemoryRow.tier, Prod.mk.injEq] using htier
  have hfrom := h r' hr'
  simp only [MemoryRow.Lasts, MemoryRow.Returns, hid, hcold, hdays] at hfrom
  exact hfrom

section
variable {bm25 : Bm25 F} {w : World F} {db₀ : Db F}

variable [Field F] [LinearOrder F]

/-- Told of cold memories only, `migrate_to_hot_many` restores those. -/
theorem ends_migrateToHotMany {userId : String} {ids : List String}
    (hcold : ∀ r ∈ w.db.memories, r.userId = userId → r.id ∈ ids → r.isCold = true) (hw : w.db.memories = db₀.memories) :
    (migrateToHotMany userId ids).ends (exec bm25) (fun _ w' => db₀.Restored w'.db) w := by
  unfold migrateToHotMany unlessEmpty
  split
  · exact .of_eq hw
  refine (ends_write (c := .migrateToHotMany userId ids)).imp ?_
  rintro (e | a) w' h
  · exact .of_eq (h.1 ▸ hw)
  obtain ⟨-, hdb⟩ := Prod.mk.inj (Except.ok.inj h.2)
  rw [← hdb, modifyEach_fst]
  have hstep : ∀ (xs : List String) (db : Db F), xs ⊆ ids → db₀.Restored db →
      db₀.Restored (xs.foldl (fun d x => d.modify (owned userId x) restoreRow) db) := by
    intro xs
    induction xs with
    | nil => exact fun db _ h => h
    | cons x xs ih =>
      intro db hxs h
      obtain ⟨hx, hxs⟩ := List.cons_subset.mp hxs
      refine ih _ hxs fun r'' hr'' => ?_
      obtain ⟨r', hr', rfl⟩ := List.mem_map.mp hr''
      obtain ⟨r, hr, hfrom⟩ := h r' hr'
      refine ⟨r, hr, ?_⟩
      split
      · rename_i howned
        have hboth : r'.userId = userId ∧ r'.id = x := by simpa [owned] using howned
        refine .inr ?_
        rcases hfrom with rfl | ⟨hcold', rfl⟩
        · exact ⟨hcold r' (hw ▸ hr) hboth.1 (hboth.2 ▸ hx), rfl⟩
        · exact ⟨hcold', rfl⟩
      · exact hfrom
  exact hstep ids w.db (List.Subset.refl ids) (.of_eq hw)

theorem ends_restoreRead (hk : w.db.Keyed) {userId : String} {rows : List (MemoryRow F)}
    (hrows : ∀ row ∈ rows, row ∈ w.db.memories) (hw : w.db.memories = db₀.memories) :
    (migrateToHotMany userId ((rows.filter (·.isCold)).map MemoryRow.id)).ends (exec bm25)
      (fun _ w' => db₀.Restored w'.db) w := by
  refine ends_migrateToHotMany (fun r hr _ hid => ?_) hw
  obtain ⟨row, hrow, hid⟩ := List.mem_map.mp hid
  obtain ⟨hmem, hcold⟩ := List.mem_filter.mp hrow
  rwa [hk.eq_of_id hr (hrows row hmem) hid.symm]

theorem ends_ask {q : Query F} : (sqlx (query q) : HandlerM F q.Res).ends (exec bm25)
    (fun answer w' => w'.db = w.db ∧ ∀ a, answer = .ok a → q.eval bm25 w.db = .ok a) w := by
  refine .mapError (ends_query.imp ?_)
  rintro answer w' ⟨rfl, rfl⟩
  refine ⟨rfl, fun a ha => ?_⟩
  by_cases hfault : w.oracle.sqlFault 0 = true
  · rw [if_pos hfault] at ha
    cases ha
  · rw [if_neg hfault] at ha
    cases heval : q.eval bm25 w.db with
    | error e =>
      rw [heval] at ha
      cases ha
    | ok b =>
      rw [heval] at ha
      cases ha
      rfl

theorem ends_readMany {userId : String} {ids : List String} :
    (sqlx (getManyForUser userId ids) : HandlerM F _).ends (exec bm25)
    (fun answer w' => w'.db = w.db ∧ ∀ rows, answer = .ok rows → ∀ row ∈ rows, row ∈ w.db.memories) w := by
  unfold getManyForUser
  split
  · refine ⟨rfl, fun rows hrows row hrow => ?_⟩
    cases hrows
    cases hrow
  · refine (ends_ask (q := .getManyForUser userId ids)).imp fun answer w' h => ⟨h.1, fun rows hrows row hrow => ?_⟩
    cases h.2 rows hrows
    exact (mem_getManyForUser.mp hrow).1

theorem ends_restoreCold (hk : db₀.Keyed) {userId : String} {ids : List String} (hw : w.db.memories = db₀.memories) :
    (restoreCold userId ids).ends (exec bm25) (fun _ w' => db₀.Restored w'.db) w := by
  refine .seq ends_readMany (fun rows w₁ h₁ => ?_) fun e w₁ h₁ => .of_eq (h₁.1 ▸ hw)
  have hw₁ : w₁.db.memories = db₀.memories := h₁.1 ▸ hw
  have hk₁ : w₁.db.Keyed := by
    unfold Db.Keyed
    rwa [hw₁]
  refine .seq (P := fun _ (w₂ : World F) => db₀.Restored w₂.db) (.mapError (ends_restoreRead hk₁ ?_ hw₁))
      (fun _ w₂ h₂ => h₂) fun e w₂ h₂ => h₂
  exact h₁.1 ▸ h₁.2 rows rfl

theorem ends_still {ε α : Type} {p : Prog (Cmd F) Cmd.Res ε α} (hp : p.Only Cmd.still) (h : db₀.Restored w.db) :
    p.ends (exec bm25) (fun _ w' => db₀.Restored w'.db) w :=
  hp.ends (J := fun w' : World F => db₀.Restored w'.db) (fun _ s hc hs r' hr' => hs r' (still_memories bm25 hc s ▸ hr')) h

theorem ends_require {α : Type} {user user' : String} {f : Unit → HandlerM F α} {Q : Except HandlerError α → World F → Prop}
    (hfail : ∀ e, Q (.error e) w) (hok : (f ()).ends (exec bm25) Q w) :
      (requireUserMatch user user' >>= f).ends (exec bm25) Q w := by
  unfold requireUserMatch
  split
  · exact hok
  · exact hfail _

variable {app : AppState F}

section
variable [Elementary F]

theorem ends_get (hk : w.db.Keyed) {userId id user : String} :
    (handleMemoryGet app userId id user).ends (exec bm25) (fun _ w' => w.db.Restored w'.db) w := by
  have hdata : ∀ row, (memoryRowToData app row).Only (Cmd.still (F := F)) :=
      fun row => only_bind (only_clock trivial) fun _ => trivial
  refine ends_require (fun _ => .of_eq rfl) ?_
  refine .seq (ends_ask (q := .getForUser userId id)) (fun row? w₁ h₁ => ?_) fun e w₁ h₁ => .of_eq (congrArg Db.memories h₁.1)
  cases row? with
  | none => exact .of_eq (congrArg Db.memories h₁.1)
  | some row =>
    have heval : w.db.memories.find? (fun r => r.userId == userId && r.id == id) = some row := Except.ok.inj (h₁.2 _ rfl)
    have hrow : row ∈ w₁.db.memories := h₁.1 ▸ List.mem_of_find?_eq_some heval
    dsimp only
    split
    · rename_i hcold
      have hcold' : ∀ r ∈ w₁.db.memories, r.userId = userId → r.id ∈ [row.id] → r.isCold = true := by
        intro r hr _ hid
        have hk₁ : w₁.db.Keyed := h₁.1 ▸ hk
        rwa [hk₁.eq_of_id hr hrow (List.mem_singleton.mp hid)]
      refine .seq (P := fun _ (w₂ : World F) => w.db.Restored w₂.db)
          (.mapError (ends_migrateToHotMany hcold' (congrArg Db.memories h₁.1))) (fun _ w₂ h₂ => ?_) fun e w₂ h₂ => h₂
      exact ends_still (only_bind (hdata _) fun _ => trivial) h₂
    · exact ends_still (only_bind (hdata _) fun _ => trivial) (.of_eq (congrArg Db.memories h₁.1))

theorem ends_getMany (hk : w.db.Keyed) {userId : String} {ids : List String} {user : String} :
    (handleMemoryGetMany app userId ids user).ends (exec bm25) (fun _ w' => w.db.Restored w'.db) w := by
  refine ends_require (fun _ => .of_eq rfl) ?_
  refine .seq ends_readMany (fun rows w₁ h₁ => ?_) fun e w₁ h₁ => .of_eq (congrArg Db.memories h₁.1)
  have hk₁ : w₁.db.Keyed := h₁.1 ▸ hk
  have hrows : ∀ row ∈ rows, row ∈ w₁.db.memories := h₁.1 ▸ h₁.2 rows rfl
  refine .seq (P := fun _ (w₂ : World F) => w.db.Restored w₂.db)
      (.mapError (ends_restoreRead hk₁ hrows (congrArg Db.memories h₁.1))) (fun _ w₂ h₂ => ?_) fun e w₂ h₂ => h₂
  exact ends_still (only_bind (only_memoryRowsToData trivial _ _) fun _ => trivial) h₂

/-- Only what a deep Search returns is restored, and only if it was cold. -/
theorem ends_search (hk : w.db.Keyed) {args : SearchMemoryArgs} {user : String} :
    (handleMemorySearch app args user).ends (exec bm25)
      (fun _ w' => w.db.From (fun r r' => r.Lasts r' ∨ r.Returns r') w'.db) w := by
  have hnone : ∀ w' : World F, w'.db.memories = w.db.memories → w.db.From (fun r r' => r.Lasts r' ∨ r.Returns r') w'.db :=
    fun w' h => (Db.Restored.of_eq h).from
  let J (w' : World F) : Prop := w'.db.memories = w.db.memories
  refine ends_require (fun _ => hnone w rfl) ?_
  refine .seq (only_embed.ends (J := J) (fun _ s hc hs => (quiet_memories bm25 hc s).trans hs) rfl) (fun queryVec w₁ h₁ => ?_)
    fun e w₁ h₁ => hnone w₁ h₁
  have hclock : (unixNow : HandlerM F Int).ends (exec bm25) (fun _ => J) w₁ := h₁
  refine .seq hclock (fun now w₂ h₂ => ?_) fun e w₂ h₂ => hnone w₂ h₂
  have hstill : ∀ {ε α : Type} {p : Prog (Cmd F) Cmd.Res ε α} {w' : World F}, p.Only Cmd.still → J w' →
      p.ends (exec bm25) (fun _ => J) w' := fun hp h => hp.ends (fun _ s hc hs => (still_memories bm25 hc s).trans hs) h
  refine .seq (P := fun _ => J) (.mapError (hstill (only_search.imp fun _ h => h.still) h₂)) (fun results w₃ h₃ => ?_)
    fun e w₃ h₃ => hnone w₃ h₃
  refine .seq (P := fun _ => J) (.mapError (hstill (only_findBridges.imp fun _ h => h.still) h₃)) (fun bridges w₄ h₄ => ?_)
    fun e w₄ h₄ => hnone w₄ h₄
  have hrestore : (whenever (args.deepRecall && !(results.map SearchResult.memoryId).isEmpty)
      (restoreCold args.userId (results.map SearchResult.memoryId))).ends (exec bm25) (fun _ w' => w.db.Restored w'.db) w₄ := by
    unfold whenever
    split
    · exact ends_restoreCold hk h₄
    · exact .of_eq h₄
  refine .seq hrestore (fun _ w₅ h₅ => ?_) fun e w₅ h₅ => h₅.from
  have hstrengthen : (whenever (!(results.map SearchResult.memoryId).isEmpty)
      (strengthenResults app args.userId results now)).ends
      (exec bm25) (fun _ w' => w.db.From (fun r r' => r.Lasts r' ∨ r.Returns r') w'.db) w₅ :=
    (only_whenever only_tiers_strengthenResults).ends
      (J := fun w' : World F => w.db.From (fun r r' => r.Lasts r' ∨ r.Returns r') w'.db)
      (fun _ s hc hs => from_of_tiers (tiers_exec bm25 hc s) hs) h₅.from
  exact .seq hstrengthen (fun _ w₆ h₆ => h₆) fun e w₆ h₆ => h₆

omit [Elementary F] in
/-- A MigrateToHot restores what it is told of, and says whether there is such a memory. -/
theorem ends_migrateToHot {userId id user : String} : (handleMigrateToHot userId id user : HandlerM F _).ends (exec bm25)
    (fun answer w' => (w'.db.memories = w.db.memories ∧ ∃ e, answer = .error e) ∨
      w'.db = w.db.modify (owned userId id) restoreRow ∧
        answer = .ok (.affected (if 0 < w.db.matching (owned userId id) then 1 else 0))) w := by
  refine ends_require (fun e => .inl ⟨rfl, e, rfl⟩) ?_
  refine .seq (P := fun answer (w' : World F) => (w'.db.memories = w.db.memories ∧ ∃ e, answer = .error e) ∨
      w'.db = w.db.modify (owned userId id) restoreRow ∧ answer = .ok (w.db.matching (owned userId id)))
    (.mapError ((ends_write (c := .migrateToHot userId id)).imp ?_)) ?_ ?_
  · rintro (e | a) w₁ h
    · exact .inl ⟨congrArg Db.memories h.1, _, rfl⟩
    · obtain ⟨rfl, hdb⟩ := Prod.mk.inj (Except.ok.inj h.2)
      exact .inr ⟨hdb.symm, rfl⟩
  · rintro n w₁ (⟨-, e, he⟩ | ⟨hdb, hn⟩)
    · cases he
    · cases hn
      exact .inr ⟨hdb, rfl⟩
  · rintro e w₁ (⟨hw, -⟩ | ⟨-, hn⟩)
    · exact .inl ⟨hw, e, rfl⟩
    · cases hn

theorem issues_laterPasses {t : Caller F} {now : Int} {decayed : ℕ} {h : Seen F} :
    (laterPasses t.app now decayed).Issues t.derives (fun _ _ => True) h := by
  refine .seq (issues_plain (only_mapError (only_query trivial))) fun stale h₁ _ => ?_
  refine .seq (issues_plain (only_mapError (only_write trivial))) fun _ h₂ _ => .seq issues_resolving fun _ h₃ _ => ?_
  exact .seq issues_consolidateAtTick fun _ _ _ => trivial

theorem only_laterPasses {now : Int} {decayed : ℕ} : (laterPasses app now decayed).Only Cmd.lasting := by
  have hwrite : ∀ w : Write F, ¬ w.recounts → ¬ w.deletes → (Cmd.write w).lasting := fun _ h h' => ⟨h, h'⟩
  have hstill : ∀ c : Cmd F, c.still → c.lasting := by
    intro c hc
    cases c with
    | write => exact hc.elim
    | _ => trivial
  refine only_bind (only_mapError (only_query trivial)) fun stale => ?_
  refine only_bind (only_mapError (only_write (hwrite _ not_false not_false))) fun _ => only_bind ?_ fun _ =>
      only_bind ?_ fun _ => trivial
  · refine only_bind (only_mapError (only_query trivial)) fun pairs => ?_
    split
    · trivial
    · exact only_mapError ⟨trivial, fun _ => only_ofExcept _⟩
  · refine only_consolidateAtTick hstill (fun w hw => ?_) app now
    cases w with
    | insertMemory | cacheInsert | supersedeCluster => exact hwrite _ not_false not_false
    | _ => exact hw.elim

end

theorem run_lasting {t : Caller F} {α : Type} {p : HandlerM F α} {h : Seen F}
    (hissues : p.Issues t.derives (fun _ _ => True) h)
    (honly : p.Only Cmd.lasting) (hholds : db₀.Holds w.db) (hfrom : db₀.From MemoryRow.Lasts w.db) :
    db₀.Holds (p.run (exec bm25) w).2.db ∧ db₀.From MemoryRow.Lasts (p.run (exec bm25) w).2.db := by
  have hlasting : p.Issues (fun _ c => c.lasting) _ h := honly.issues (fun _ _ hc => hc) h
  have hboth := hissues.and hlasting
  refine hboth.run_keeps (exec bm25) (J := fun w' : World F => db₀.Holds w'.db ∧ db₀.From MemoryRow.Lasts w'.db) ?_
      ⟨hholds, hfrom⟩
  rintro h c s ⟨hd, hc⟩ ⟨hs, hs'⟩
  exact ⟨holds_exec bm25 hc hs, from_exec bm25 hd hc hs hs'⟩

/-! ## Requests -/

def Request.lasting : Request F → Prop
  | .memory (.search _) | .memory (.get ..) | .memory (.getMany ..) | .memory (.delete ..) | .memory (.deleteMany ..)
  | .lifecycle (.tick _) | .lifecycle (.migrateToHot ..) | .lifecycle (.clear ..) => False
  | _ => True

def Request.deletes : Request F → Prop
  | .memory (.delete ..) | .memory (.deleteMany ..) | .lifecycle (.clear ..) => True
  | _ => False

omit [LinearOrder F] in
theorem lasting_of_issues {req : Request F} (h : req.lasting) {c : Cmd F} (hc : req.issues c) : c.lasting := by
  cases c with
  | write w =>
    refine ⟨fun hw => ?_, fun hw => ?_⟩
    all_goals
      cases w with
      | migrateToHot | migrateToHotMany | tickFloor | deleteMemory | deleteMany | clearUser =>
        first
          | exact hw.elim
          | cases req with
            | diagnostics req => cases req <;> exact hc.elim
            | memory req => cases req <;> first | exact hc.elim | exact h.elim | cases hc
            | lifecycle req => cases req <;> first | exact hc.elim | exact h.elim | cases hc
            | unknownBucket => exact hc.elim
      | _ => exact hw.elim
  | _ => trivial

theorem from_deletes [Elementary F] {t : Caller F} (h : t.request.deletes) :
    w.db.From MemoryRow.Lasts (t.serve bm25 w).db := by
  have hsubset : ∀ r' ∈ (t.serve bm25 w).db.memories, r' ∈ w.db.memories := by
    refine (only_issued t.app t.request t.user).run_keeps (exec bm25) (J := fun w' => ∀ r' ∈ w'.db.memories, r' ∈ w.db.memories)
      (fun c s hc hs => ?_) fun r' hr' => hr'
    refine exec_keeps (P := fun db => ∀ r' ∈ db.memories, r' ∈ w.db.memories) bm25 hs ?_ fun llm pairs heq => ?_
    · rintro wr a db rfl happly
      have hsome : wr.deletes := by
        cases hreq : t.request with
        | memory req =>
          rw [hreq] at h hc
          cases req with
          | delete | deleteMany =>
            obtain rfl := hc
            trivial
          | _ => exact h.elim
        | lifecycle req =>
          rw [hreq] at h hc
          cases req with
          | clear =>
            obtain rfl := hc
            trivial
          | _ => exact h.elim
        | _ =>
          rw [hreq] at h
          exact h.elim
      cases wr with
      | deleteMemory | deleteMany | clearUser =>
        cases happly
        exact fun r' hr' => hs r' (List.mem_filter.mp hr').1
      | _ => exact hsome.elim
    · subst heq
      obtain ⟨sync, hreq⟩ := hc
      rw [hreq] at h
      exact h.elim
  exact fun r' hr' => .inl ⟨r', hsubset r' hr', .refl r'⟩

omit [Field F] [LinearOrder F] in
theorem Db.From.mono {R R' : MemoryRow F → MemoryRow F → Prop} {db : Db F} (h : db₀.From R db)
    (hR : ∀ r r', R r r' → R' r r') :
    db₀.From R' db := by
  intro r' hr'
  rcases h r' hr' with ⟨r, hr, hrr'⟩ | hnew
  · exact .inl ⟨r, hr, hR r r' hrr'⟩
  · exact .inr hnew

omit [Field F] [LinearOrder F] in
theorem from_refl (db : Db F) : db.From MemoryRow.Lasts db := fun r' hr' => .inl ⟨r', hr', .refl r'⟩

variable (bm25) in
/-- Neither a Tick nor a MigrateToHot: counts stay, or memories come back from the cold tier. -/
theorem from_request [Elementary F] (hk : w.db.Keyed) {t : Caller F} (htick : ¬ t.isTick)
    (hhot : ∀ userId id, t.request ≠ .lifecycle (.migrateToHot userId id)) :
    w.db.From (fun r r' => r.Lasts r' ∨ r.Returns r') (t.serve bm25 w).db := by
  by_cases hdeletes : t.request.deletes
  · exact (from_deletes hdeletes).mono fun r r' h => .inl h
  by_cases hlasting : t.request.lasting
  · have honly := (only_issued t.app t.request t.user).imp fun c hc => lasting_of_issues hlasting hc
    exact (run_lasting (issues_derived t) honly (List.Subset.refl _) (from_refl w.db)).2.mono fun r r' h => .inl h
  unfold Caller.serve
  cases hreq : t.request with
  | memory req =>
    rw [hreq] at hdeletes hlasting
    cases req with
    | search => exact ends_run.mp (ends_search hk)
    | get => exact (ends_run.mp (ends_get hk)).from
    | getMany => exact (ends_run.mp (ends_getMany hk)).from
    | delete | deleteMany => exact absurd trivial hdeletes
    | _ => exact absurd trivial hlasting
  | lifecycle req =>
    rw [hreq] at hdeletes hlasting
    cases req with
    | tick sync => exact absurd ⟨sync, hreq⟩ htick
    | migrateToHot userId id => exact absurd hreq (hhot userId id)
    | clear => exact absurd trivial hdeletes
    | _ => exact absurd trivial hlasting
  | _ =>
    rw [hreq] at hlasting
    exact absurd trivial hlasting

/-! ## Marks -/

omit [Field F] [LinearOrder F] in
theorem find?_id (hk : w.db.Keyed) {r : MemoryRow F} (hr : r ∈ w.db.memories) :
    w.db.memories.find? (·.id == r.id) = some r := by
  cases hfind : w.db.memories.find? (·.id == r.id) with
  | none => exact absurd (beq_self_eq_true r.id) (List.find?_eq_none.mp hfind r hr)
  | some r' =>
    have hid : (r'.id == r.id) = true := List.find?_some (p := fun x : MemoryRow F => x.id == r.id) hfind
    rw [hk.eq_of_id (List.mem_of_find?_eq_some hfind) hr (beq_iff_eq.mp hid)]

variable {t : Caller F}

variable [Elementary F]

theorem marks_absent {id : String} (h : ∀ r ∈ w.db.memories, r.id ≠ id) : t.marks bm25 w id = .anew := by
  have hfind : w.db.memories.find? (·.id == id) = none := List.find?_eq_none.mpr fun r hr heq => h r hr (beq_iff_eq.mp heq)
  unfold Caller.marks
  rw [hfind]

theorem marks_round (hk : w.db.Keyed) {r : MemoryRow F} (hr : r ∈ w.db.memories) (hhot : r.hot = true) {now : Int}
    (hnow : t.countsAt bm25 w = some now) : t.marks bm25 w r.id = .round (atFloor t.app now r) := by
  unfold Caller.marks
  rw [find?_id hk hr]
  dsimp only
  rw [hnow, hhot]

theorem marks_between (hk : w.db.Keyed) {r : MemoryRow F} (hr : r ∈ w.db.memories)
    (hpass : t.countsAt bm25 w = none ∨ r.hot = false) :
    t.marks bm25 w r.id = if t.migratesToHot bm25 w r.id || t.autoRestores bm25 w r.id then .anew else .other := by
  unfold Caller.marks
  rw [find?_id hk hr]
  dsimp only
  rcases hpass with hnone | hcool
  · rw [hnone]
  · rw [hcool]
    cases t.countsAt bm25 w <;> rfl

omit [Field F] [LinearOrder F] [Elementary F] in
theorem any_id {db : Db F} (hk : db.Keyed) {r : MemoryRow F} (hr : r ∈ db.memories) (p : MemoryRow F → Bool) :
    (db.memories.any fun x => x.id == r.id && p x) = p r := by
  rw [Bool.eq_iff_iff, List.any_eq_true]
  constructor
  · rintro ⟨x, hx, h⟩
    obtain ⟨hid, hp⟩ := Bool.and_eq_true_iff.mp h
    rwa [hk.eq_of_id hx hr (beq_iff_eq.mp hid)] at hp
  · intro hp
    exact ⟨r, hr, Bool.and_eq_true_iff.mpr ⟨beq_self_eq_true r.id, hp⟩⟩

theorem autoRestores_eq (hk : w.db.Keyed) (hk' : (t.serve bm25 w).db.Keyed) {r r' : MemoryRow F} (hr : r ∈ w.db.memories)
    (hr' : r' ∈ (t.serve bm25 w).db.memories) (hid : r'.id = r.id) :
    t.autoRestores bm25 w r.id = (r.isCold && !r'.isCold) := by
  have hbefore := any_id hk hr fun x => x.isCold
  have hafter := any_id hk' hr' fun x => !x.isCold
  rw [hid] at hafter
  rw [Caller.autoRestores, hbefore, hafter]

/-! ## One request -/

def Caller.Counted (bm25 : Bm25 F) (t : Caller F) (w : World F) (r r' : MemoryRow F) : Prop :=
  ∀ marks : List Mark, r.daysAtFloor = streak marks → r'.daysAtFloor = streak (t.marks bm25 w r.id :: marks)

/-- Outside a round, a count stays or is cleared as the request says. -/
theorem counted_between (hk : w.db.Keyed) (hk' : (t.serve bm25 w).db.Keyed) {r r' : MemoryRow F} (hr : r ∈ w.db.memories)
    (hr' : r' ∈ (t.serve bm25 w).db.memories) (hpass : t.countsAt bm25 w = none ∨ r.hot = false)
    (h : t.migratesToHot bm25 w r.id = false ∧ (r.Lasts r' ∨ r.Returns r') ∨
      t.migratesToHot bm25 w r.id = true ∧ r'.id = r.id ∧ r'.daysAtFloor = 0) :
    t.Counted bm25 w r r' := by
  intro marks hstreak
  rw [marks_between hk hr hpass]
  rcases h with ⟨hno, hlasts | hreturns⟩ | ⟨hyes, -, hzero⟩
  · have hwarm : (r.isCold && !r'.isCold) = false := by
      cases hcold : r.isCold with
      | false => rfl
      | true => rw [hlasts.2.2 hcold]; rfl
    rw [hno, autoRestores_eq hk hk' hr hr' hlasts.1, hwarm, hlasts.2.1, hstreak]
    exact congrArg Nat.cast streak_other.symm
  · rw [hno, autoRestores_eq hk hk' hr hr' hreturns.1, hreturns.2.1, hreturns.2.2.1, hreturns.2.2.2]
    exact congrArg Nat.cast streak_anew.symm
  · rw [hyes, hzero]
    exact congrArg Nat.cast streak_anew.symm

variable (bm25) in
/-- Pass 1 of a Tick, as it leaves the store; `none` where it fails. -/
theorem run_tick (hk : w.db.Keyed) (htick : t.isTick) :
    (∃ now, t.countsAt bm25 w = some now ∧
      ((floorPass t.app).run (exec bm25) w).2.db.memories =
        w.db.memories.map (fun r => if r.hot then r.ticked now (r, atFloor t.app now r) else r) ∧
      ((floorPass t.app).run (exec bm25) w).2.db.Holds (t.serve bm25 w).db ∧
      ((floorPass t.app).run (exec bm25) w).2.db.From MemoryRow.Lasts (t.serve bm25 w).db) ∨
    t.countsAt bm25 w = none ∧ (t.serve bm25 w).db.memories = w.db.memories := by
  obtain ⟨sync, hreq⟩ := htick
  have hends : (floorPass t.app).ends (exec bm25) _ w := ends_floorPass hk
  have hpass := ends_run.mp hends
  have hserve : t.serve bm25 w = (((floorPass t.app).bind fun p => laterPasses t.app p.1 p.2).run (exec bm25) w).2 := by
    rw [← handleTick_passes]
    unfold Caller.serve
    rw [hreq]
    rfl
  have hcounts : t.countsAt bm25 w = match ((floorPass t.app).run (exec bm25) w).1 with
      | .ok (now, _) => some now
      | .error _ => none := by
    unfold Caller.countsAt
    rw [hreq]
  rw [hserve, hcounts]
  cases hrun : (floorPass t.app).run (exec bm25) w with
  | mk answer w₁ =>
    rw [hrun] at hpass
    cases answer with
    | error e =>
      refine .inr ⟨rfl, ?_⟩
      rw [run_bind_error _ hrun]
      exact hpass
    | ok p =>
      refine .inl ⟨p.1, rfl, hpass, ?_⟩
      rw [run_bind_ok _ hrun]
      exact run_lasting (issues_laterPasses (h := [])) only_laterPasses (List.Subset.refl _) (from_refl w₁.db)

theorem not_migrates (h : ∀ userId id, t.request ≠ .lifecycle (.migrateToHot userId id)) (id : String) :
    t.migratesToHot bm25 w id = false := by
  unfold Caller.migratesToHot
  split
  · rename_i userId id' hreq
    exact absurd hreq (h userId id')
  · rfl

theorem counted_tick (hk : w.db.Keyed) (hk' : (t.serve bm25 w).db.Keyed) (htick : t.isTick) {r' : MemoryRow F}
    (hr' : r' ∈ (t.serve bm25 w).db.memories) :
    (∃ r ∈ w.db.memories, r'.id = r.id ∧ t.Counted bm25 w r r') ∨ (∀ r ∈ w.db.memories, r.id ≠ r'.id) ∧ r'.daysAtFloor = 0 := by
  have hno : ∀ id, t.migratesToHot bm25 w id = false := by
    obtain ⟨sync, hreq⟩ := htick
    refine not_migrates fun userId id heq => ?_
    rw [hreq] at heq
    cases heq
  rcases run_tick bm25 hk htick with ⟨now, hnow, hpass, -, hfrom⟩ | ⟨hnone, hsame⟩
  · rcases hfrom r' hr' with ⟨r₁, hr₁, hlasts⟩ | ⟨hnew, hzero⟩
    · rw [hpass] at hr₁
      obtain ⟨r, hr, rfl⟩ := List.mem_map.mp hr₁
      -- cold rows are not among those the pass reads
      cases hhot : r.hot with
      | true =>
        rw [hhot, if_pos rfl] at hlasts
        refine .inl ⟨r, hr, hlasts.1.trans (ticked_id _ _ _), fun marks hstreak => ?_⟩
        rw [marks_round hk hr hhot hnow, hlasts.2.1, ticked_days, hstreak]
        cases atFloor t.app now r with
        | true => simp
        | false =>
          rw [if_neg Bool.false_ne_true, streak_miss]
          split <;> omega
      | false =>
        rw [hhot, if_neg Bool.false_ne_true] at hlasts
        exact .inl ⟨r, hr, hlasts.1, counted_between hk hk' hr hr' (.inr hhot) (.inl ⟨hno r.id, .inl hlasts⟩)⟩
    · refine .inr ⟨fun r hr heq => ?_, hzero⟩
      refine hnew _ (hpass ▸ List.mem_map_of_mem hr) ?_
      rw [apply_ite MemoryRow.id, ticked_id, ite_self, heq]
  · have hr : r' ∈ w.db.memories := hsame ▸ hr'
    exact .inl ⟨r', hr, rfl, counted_between hk hk' hr hr' (.inl hnone) (.inl ⟨hno r'.id, .inl (.refl r')⟩)⟩

omit [Field F] [LinearOrder F] [Elementary F] in
theorem owned_iff {userId id : String} {r : MemoryRow F} : owned userId id r = true ↔ r.userId = userId ∧ r.id = id := by
  simp [owned]

variable (bm25 w) in
/-- A MigrateToHot fails, or restores what it is told of and says whether there is such a memory. -/
theorem serve_migrateToHot {userId id : String} (hreq : t.request = .lifecycle (.migrateToHot userId id)) :
    ((t.serve bm25 w).db.memories = w.db.memories ∧ ∀ i, t.migratesToHot bm25 w i = false) ∨
    (t.serve bm25 w).db = w.db.modify (owned userId id) restoreRow ∧
      ∀ i, t.migratesToHot bm25 w i = (id == i && decide (0 < w.db.matching (owned userId id))) := by
  have hmoved : (handleMigrateToHot userId id t.user : HandlerM F _).ends (exec bm25) _ w := ends_migrateToHot
  have hserve : t.serve bm25 w = ((handleMigrateToHot userId id t.user : HandlerM F _).run (exec bm25) w).2 := by
    unfold Caller.serve
    rw [hreq]
    rfl
  have hmigrates : ∀ i, t.migratesToHot bm25 w i =
      (id == i && match ((handleMigrateToHot userId id t.user : HandlerM F _).run (exec bm25) w).1 with
        | .ok (.affected n) => n == 1
        | _ => false) := by
    intro i
    unfold Caller.migratesToHot
    rw [hreq]
    rfl
  rw [hserve]
  rcases ends_run.mp hmoved with ⟨hsame, e, he⟩ | ⟨hdb, hanswer⟩
  · exact .inl ⟨hsame, fun i => by rw [hmigrates, he, Bool.and_false]⟩
  · refine .inr ⟨hdb, fun i => ?_⟩
    rw [hmigrates, hanswer]
    by_cases hsome : 0 < w.db.matching (owned userId id) <;> simp [hsome]

/-- It takes the memory it finds for restored, and no other one of that id is another user's. -/
theorem migrates_iff_owned (hk : w.db.Keyed) {userId id : String} {r : MemoryRow F} (hr : r ∈ w.db.memories)
    (hmigrates : ∀ i, t.migratesToHot bm25 w i = (id == i && decide (0 < w.db.matching (owned userId id)))) :
    t.migratesToHot bm25 w r.id = owned userId id r := by
  rw [hmigrates, Bool.eq_iff_iff, Bool.and_eq_true, beq_iff_eq, decide_eq_true_iff]
  constructor
  · rintro ⟨hid, hsome⟩
    obtain ⟨x, hx⟩ := List.exists_mem_of_length_pos hsome
    obtain ⟨hmem, howned⟩ := List.mem_filter.mp hx
    rwa [hk.eq_of_id hmem hr ((owned_iff.mp howned).2.trans hid)] at howned
  · intro howned
    exact ⟨(owned_iff.mp howned).2.symm, List.length_pos_of_mem (List.mem_filter.mpr ⟨hr, howned⟩)⟩

theorem counted_migrateToHot (hk : w.db.Keyed) (hk' : (t.serve bm25 w).db.Keyed) {userId id : String}
    (hreq : t.request = .lifecycle (.migrateToHot userId id)) (hnone : t.countsAt bm25 w = none) {r' : MemoryRow F}
    (hr' : r' ∈ (t.serve bm25 w).db.memories) : ∃ r ∈ w.db.memories, r'.id = r.id ∧ t.Counted bm25 w r r' := by
  rcases serve_migrateToHot bm25 w hreq with ⟨hsame, hno⟩ | ⟨hdb, hmigrates⟩
  · have hr : r' ∈ w.db.memories := hsame ▸ hr'
    exact ⟨r', hr, rfl, counted_between hk hk' hr hr' (.inl hnone) (.inl ⟨hno r'.id, .inl (.refl r')⟩)⟩
  · have hmem := hr'
    rw [hdb] at hmem
    obtain ⟨r, hr, hmodified⟩ := List.mem_map.mp hmem
    have howns := migrates_iff_owned hk hr hmigrates
    by_cases howned : owned userId id r = true
    · rw [if_pos howned] at hmodified
      subst hmodified
      exact ⟨r, hr, rfl, counted_between hk hk' hr hr' (.inl hnone) (.inr ⟨howns.trans howned, rfl, rfl⟩)⟩
    · rw [if_neg howned] at hmodified
      subst hmodified
      exact ⟨r, hr, rfl, counted_between hk hk' hr hr' (.inl hnone)
        (.inl ⟨howns.trans (Bool.eq_false_iff.mpr howned), .inl (.refl r)⟩)⟩

/-- Whatever is requested, a memory that stays has the count that its marks say, and a new one has none. -/
theorem counted_serve (hk : w.db.Keyed) (hk' : (t.serve bm25 w).db.Keyed) {r' : MemoryRow F}
    (hr' : r' ∈ (t.serve bm25 w).db.memories) :
    (∃ r ∈ w.db.memories, r'.id = r.id ∧ t.Counted bm25 w r r') ∨ (∀ r ∈ w.db.memories, r.id ≠ r'.id) ∧ r'.daysAtFloor = 0 := by
  by_cases htick : t.isTick
  · exact counted_tick hk hk' htick hr'
  have hnone : t.countsAt bm25 w = none := by
    unfold Caller.countsAt
    split
    · rename_i sync hreq
      exact absurd ⟨sync, hreq⟩ htick
    · rfl
  by_cases hhot : ∃ userId id, t.request = .lifecycle (.migrateToHot userId id)
  · obtain ⟨userId, id, hreq⟩ := hhot
    exact .inl (counted_migrateToHot hk hk' hreq hnone hr')
  -- a restore resets the counter of a cold memory only
  have hhot' : ∀ userId id, t.request ≠ .lifecycle (.migrateToHot userId id) := fun userId id heq => hhot ⟨userId, id, heq⟩
  rcases from_request bm25 hk htick hhot' r' hr' with ⟨r, hr, h⟩ | hnew
  · have hid : r'.id = r.id := h.elim (fun h => h.1) fun h => h.1
    exact .inl ⟨r, hr, hid, counted_between hk hk' hr hr' (.inl hnone) (.inl ⟨not_migrates hhot' r.id, h⟩)⟩
  · exact .inr hnew

/-! ## Runs -/

variable {w₀ : World F}

variable (bm25) in
theorem after_reachable (h : w₀.Start) (ts : List (Caller F)) : Reachable bm25 anyCaller anyStep (w₀.after bm25 ts) := by
  induction ts with
  | nil => exact h.reachable
  | cons t ts ih => exact ih.serve trivial fun _ _ => trivial

/-- In every run from a new store, the count of a memory is that of its marks. -/
theorem count_of_history (h : w₀.Start) (ts : List (Caller F)) :
    ∀ r ∈ (w₀.after bm25 ts).db.memories, r.daysAtFloor = streak (w₀.history bm25 r.id ts) := by
  induction ts with
  | nil =>
    intro r hr
    rw [World.after, h.db] at hr
    cases hr
  | cons t ts ih =>
    intro r' hr'
    have hk := (after_reachable bm25 h ts).keyed
    have hk' : (t.serve bm25 (w₀.after bm25 ts)).db.Keyed := (after_reachable bm25 h (t :: ts)).keyed
    rcases counted_serve hk hk' hr' with ⟨r, hr, hid, hcounted⟩ | ⟨hnew, hzero⟩
    · rw [hid]
      exact hcounted _ (ih r hr)
    · rw [hzero, World.history, marks_absent hnew, streak_anew]
      rfl

/-- At every Tick that finds a memory hot, neither a stub nor superseded, its count is from then on the number
of such Ticks in a row, up to this one, that met it on its positive floor since it was created or last came
back; and pass 1 moves it to the cold tier exactly when it is not core and that number is 7 or more. -/
theorem floor_counter_law (h : w₀.Start) (ts : List (Caller F)) (t : Caller F) {now : Int}
    (hnow : t.countsAt bm25 (w₀.after bm25 ts) = some now) {r : MemoryRow F} (hr : r ∈ (w₀.after bm25 ts).db.memories)
    (hhot : r.hot = true) :
    (∃ r' ∈ (w₀.after bm25 (t :: ts)).db.memories, r'.id = r.id ∧ r'.daysAtFloor = streak (w₀.history bm25 r.id (t :: ts))) ∧
      ∃ r₁ ∈ ((floorPass t.app).run (exec bm25) (w₀.after bm25 ts)).2.db.memories, r₁.id = r.id ∧
        (r₁.isCold = true ↔ r.category ≠ "core" ∧ 7 ≤ streak (w₀.history bm25 r.id (t :: ts))) := by
  have hk := (after_reachable bm25 h ts).keyed
  have htick : t.isTick := by
    unfold Caller.countsAt at hnow
    split at hnow
    · exact ⟨_, ‹_›⟩
    · cases hnow
  rcases run_tick bm25 hk htick with ⟨now', hnow', hpass, hholds, -⟩ | ⟨hnone, -⟩
  swap
  · rw [hnone] at hnow
    cases hnow
  obtain rfl : now' = now := Option.some.inj (hnow'.symm.trans hnow)
  let r₁ := r.ticked now' (r, atFloor t.app now' r)
  have hr₁ : r₁ ∈ ((floorPass t.app).run (exec bm25) (w₀.after bm25 ts)).2.db.memories := by
    rw [hpass]
    exact List.mem_map.mpr ⟨r, hr, if_pos hhot⟩
  have hid : r₁.id = r.id := ticked_id _ _ _
  refine ⟨?_, r₁, hr₁, hid, ?_⟩
  · obtain ⟨r', hr', hid'⟩ := List.mem_map.mp (hholds (List.mem_map_of_mem hr₁))
    refine ⟨r', hr', hid'.trans hid, ?_⟩
    rw [count_of_history h (t :: ts) r' hr', hid', hid]
  · have hwarm : ¬ r.isCold = true := by
      intro hcold
      simp [MemoryRow.hot, hcold] at hhot
    have hdays := count_of_history h ts r hr
    rw [ticked_cold, or_iff_right hwarm, World.history, marks_round hk hr hhot hnow, hdays]
    cases atFloor t.app now' r with
    | true =>
      rw [if_pos rfl, streak_hit]
      exact and_congr_right fun _ => by omega
    | false =>
      rw [if_neg Bool.false_ne_true, streak_miss]
      exact and_congr_right fun _ => by omega

end

/-! ### Tea on its floor -/

/-- Every reading of the clock is some thirty years later. -/
def World.leaping : World ℚ := ⟨Db.empty, [], { Oracle.quiet with clock := fun n => n * 1000000000 }⟩

theorem leaping_start : World.leaping.Start := ⟨rfl, rfl, quiet_start.distinct⟩

def dailyTick : Caller ℚ := ⟨.flat, "alice", .lifecycle (.tick false)⟩

def flooredTea (n : ℕ) : List (Caller ℚ) :=
  List.replicate n dailyTick ++ [⟨.flat, "alice", .lifecycle (.updateRetention "alice" "mem_" (1 / 2))⟩, batch "alice" ["tea"]]

/-- The seventh Tick counts to seven, and moves the tea to the cold tier. -/
theorem seventh_tick_freezes :
    (∃ r ∈ (World.leaping.after Bm25.none (flooredTea 7)).db.memories, r.id = "mem_" ∧ r.daysAtFloor = 7) ∧
      ∃ r ∈ ((floorPass dailyTick.app).run (exec Bm25.none) (World.leaping.after Bm25.none (flooredTea 6))).2.db.memories,
        r.id = "mem_" ∧ r.isCold = true := by
  have hrow : ∃ r ∈ (World.leaping.after Bm25.none (flooredTea 6)).db.memories,
      r.id = "mem_" ∧ r.hot = true ∧ r.category = "semantic" := by decide +kernel
  have hcounts : (dailyTick.countsAt Bm25.none (World.leaping.after Bm25.none (flooredTea 6))).isSome = true := by decide +kernel
  have hseven : streak (World.leaping.history Bm25.none "mem_" (flooredTea 7)) = 7 := by decide +kernel
  obtain ⟨r, hr, hid, hhot, hcategory⟩ := hrow
  obtain ⟨now, hnow⟩ := Option.isSome_iff_exists.mp hcounts
  obtain ⟨⟨r', hr', hid', hdays⟩, r₁, hr₁, hid₁, hcold⟩ := floor_counter_law leaping_start (flooredTea 6) dailyTick hnow hr hhot
  rw [hid] at hid' hdays hid₁ hcold
  have hdays' : r'.daysAtFloor = (streak (World.leaping.history Bm25.none "mem_" (flooredTea 7)) : ℕ) := hdays
  have hcold' : r₁.isCold = true ↔ r.category ≠ "core" ∧
      7 ≤ streak (World.leaping.history Bm25.none "mem_" (flooredTea 7)) := hcold
  rw [hseven] at hdays' hcold'
  rw [hcategory] at hcold'
  exact ⟨⟨r', hr', hid', hdays'⟩, r₁, hr₁, hid₁, hcold'.mpr ⟨by decide, le_refl 7⟩⟩

end CognitiveMemory
