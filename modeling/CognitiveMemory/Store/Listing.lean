import CognitiveMemory.Lib.Listing
import CognitiveMemory.Lib.Top
import CognitiveMemory.Store.Sql
import Mathlib.Algebra.Field.Rat
import Mathlib.Algebra.Order.Ring.Unbundled.Rat

/-! `MemoryRepo::query`: the SQL text and the values bound to it are put together apart from each
other, out of the same filters. What comes back, against the rows the filters ask for. -/

namespace CognitiveMemory
open Listing
variable {F : Type}

/-! ## Statements over `memories` -/

/-- The values SQLite stores and binds here; a NULL is a value that is missing. -/
inductive Value (F : Type)
  | integer (n : Int)
  | real (v : F)
  | text (s : String)
  deriving DecidableEq

section
variable [Field F] [LinearOrder F]

/-- How SQLite orders values: numbers by value, and before every text. -/
def Value.le : Value F → Value F → Bool
  | .integer a, .integer b => decide (a ≤ b)
  | .integer a, .real b => decide ((a : F) ≤ b)
  | .real a, .integer b => decide (a ≤ (b : F))
  | .real a, .real b => decide (a ≤ b)
  | .text a, .text b => decide (a ≤ b)
  | .text _, _ => false
  | _, .text _ => true

inductive Column
  | userId | category | memoryType | createdAt | retentionFloor | importance | isCold | isSuperseded | isStub
  deriving DecidableEq

def MemoryRow.column (r : MemoryRow F) : Column → Value F
  | .userId => .text r.userId
  | .category => .text r.category
  | .memoryType => .text r.memoryType
  | .createdAt => .integer r.createdAt
  | .retentionFloor => .real r.retentionFloor
  | .importance => .real r.importance
  | .isCold => .integer r.isCold.toNat
  | .isSuperseded => .integer r.isSuperseded.toNat
  | .isStub => .integer r.isStub.toNat

inductive Clause
  | equals (c : Column) -- `c = ?`
  | unset (c : Column) -- `c = 0`
  | isIn (c : Column) (n : ℕ) -- `c IN (?,?,…)`, with `n` of them
  | atLeast (c : Column) -- `c >= ?`
  | atMost (c : Column) -- `c <= ?`

def Clause.places : Clause → ℕ
  | .unset _ => 0
  | .isIn _ n => n
  | .equals _ | .atLeast _ | .atMost _ => 1

/-- A comparison with NULL is not true. -/
def Clause.holds : Clause → List (Value F) → MemoryRow F → Bool
  | .equals c, values, r => values.contains (r.column c)
  | .unset c, _, r => r.column c == .integer 0
  | .isIn c _, values, r => values.contains (r.column c)
  | .atLeast c, values, r => values.any fun v => v.le (r.column c)
  | .atMost c, values, r => values.any fun v => (r.column c).le v

/-- `SELECT … FROM memories WHERE … ORDER BY created_at DESC`, with the clauses joined by AND and the
LIMIT and OFFSET it ends in, if any. -/
structure Select where
  whereClauses : List Clause
  limit : Option Int
  offset : Option Int

/-- What the statement leaves to SQLite: how many `?` it takes, and the order in which it comes upon the
rows. The plan looks at the WHERE clause and its values, not at LIMIT and OFFSET. -/
structure Sqlite (F : Type) where
  maxVariables : ℕ
  scan : List Clause → List (Value F) → List (MemoryRow F) → List (MemoryRow F)
  scan_perm (clauses : List Clause) (values : List (Value F)) (rows : List (MemoryRow F)) :
    (scan clauses values rows).Perm rows

def Sqlite.byRowid (maxVariables : ℕ) : Sqlite F := ⟨maxVariables, fun _ _ rows => rows, fun _ _ rows => .refl rows⟩

/-- The rows that meet the WHERE clause, sorted. Rows of one second stay as the scan comes upon them. -/
def Select.rows (sqlite : Sqlite F) (s : Select) (values : List (Value F)) (db : Db F) : List (MemoryRow F) :=
  Top.ranked MemoryRow.createdAt <|
    (sqlite.scan s.whereClauses values db.memories).filter fun r => holdsAll Clause.places Clause.holds r s.whereClauses values

/-- SQLite's grammar has OFFSET only after LIMIT. It reads a negative LIMIT as none, and a negative OFFSET
as 0. -/
def Select.eval (sqlite : Sqlite F) (s : Select) (values : List (Value F)) (db : Db F) :
    Except SqlError (List (MemoryRow F)) :=
  if sqlite.maxVariables < (s.whereClauses.map Clause.places).sum then .error .syntaxError
  else match s.limit, s.offset with
    | none, none => .ok (s.rows sqlite values db)
    | none, some _ => .error .syntaxError
    | some limit, offset => .ok (sqlLimit limit ((s.rows sqlite values db).drop (offset.getD 0).toNat))

/-! ## What the repository asks -/

def inClause (c : Column) (given : Option (List String)) : List Clause :=
  match given with
  | some values => if values.isEmpty then [] else [.isIn c values.length]
  | none => []

def MemoryFilters.whereClauses (f : MemoryFilters F) : List Clause :=
  [.equals .userId] ++
  (if f.includeCold then [] else [.unset .isCold]) ++
  (if f.includeStubs then [] else [.unset .isStub]) ++
  (if f.includeSuperseded then [] else [.unset .isSuperseded]) ++
  inClause .category f.categories ++
  inClause .memoryType f.memoryTypes ++
  (if f.minRetentionFloor.isSome then [.atLeast .retentionFloor] else []) ++
  (if f.minImportance.isSome then [.atLeast .importance] else []) ++
  (if f.createdAfter.isSome then [.atLeast .createdAt] else []) ++
  (if f.createdBefore.isSome then [.atMost .createdAt] else [])

def MemoryFilters.binds (f : MemoryFilters F) (userId : String) : List (Value F) :=
  [.text userId] ++
  (f.categories.getD []).map .text ++
  (f.memoryTypes.getD []).map .text ++
  f.minRetentionFloor.toList.map .real ++
  f.minImportance.toList.map .real ++
  f.createdAfter.toList.map .integer ++
  f.createdBefore.toList.map .integer

def MemoryFilters.select (f : MemoryFilters F) : Select := ⟨f.whereClauses, f.limit, f.offset⟩

def MemoryRepo.query (sqlite : Sqlite F) (db : Db F) (userId : String) (f : MemoryFilters F) :
    Except SqlError (List (MemoryRow F)) :=
  f.select.eval sqlite (f.binds userId) db

end

/-! ## The two sequences stay aligned -/

def listed (c : Column) (given : Option (List String)) : List (Clause × List (Value F)) :=
  match given with
  | some values => if values.isEmpty then [] else [(.isIn c values.length, values.map .text)]
  | none => []

def bounded {α : Type} (clause : Clause) (value : α → Value F) (given : Option α) : List (Clause × List (Value F)) :=
  given.toList.map fun v => (clause, [value v])

def excluded (included : Bool) (c : Column) : List (Clause × List (Value F)) := if included then [] else [(.unset c, [])]

def MemoryFilters.conditions (f : MemoryFilters F) (userId : String) : List (Clause × List (Value F)) :=
  [(.equals .userId, [.text userId])] ++
  excluded f.includeCold .isCold ++ excluded f.includeStubs .isStub ++ excluded f.includeSuperseded .isSuperseded ++
  listed .category f.categories ++ listed .memoryType f.memoryTypes ++
  bounded (.atLeast .retentionFloor) .real f.minRetentionFloor ++ bounded (.atLeast .importance) .real f.minImportance ++
  bounded (.atLeast .createdAt) .integer f.createdAfter ++ bounded (.atMost .createdAt) .integer f.createdBefore

section
variable {α : Type} (c : Column) (given : Option (List String)) (clause : Clause) (value : α → Value F) (bound : Option α)
  (included : Bool) (r : MemoryRow F)

theorem listed_clauses : (listed c given : List (Clause × List (Value F))).map Prod.fst = inClause c given := by
  cases given with
  | none => rfl
  | some values => cases values <;> rfl

theorem listed_values : (listed c given).flatMap Prod.snd = (given.getD []).map (Value.text (F := F)) := by
  cases given with
  | none => rfl
  | some values =>
    cases values with
    | nil => rfl
    | cons v values => exact List.append_nil _

theorem bounded_clauses : (bounded clause value bound).map Prod.fst = if bound.isSome then [clause] else [] := by
  cases bound <;> rfl

theorem bounded_values : (bounded clause value bound).flatMap Prod.snd = bound.toList.map value := by
  cases bound <;> rfl

theorem excluded_clauses : (excluded included c : List (Clause × List (Value F))).map Prod.fst =
    if included then [] else [.unset c] := by
  cases included <;> rfl

theorem excluded_values : (excluded included c : List (Clause × List (Value F))).flatMap Prod.snd = [] := by
  cases included <;> rfl

end

theorem conditions_clauses (f : MemoryFilters F) (userId : String) :
    (f.conditions userId).map Prod.fst = f.whereClauses := by
  simp only [MemoryFilters.conditions, List.map_append, listed_clauses, bounded_clauses, excluded_clauses]
  rfl

theorem conditions_values (f : MemoryFilters F) (userId : String) :
    (f.conditions userId).flatMap Prod.snd = f.binds userId := by
  simp only [MemoryFilters.conditions, List.flatMap_append, listed_values, bounded_values, excluded_values, List.append_nil]
  rfl

theorem conditions_places (f : MemoryFilters F) (userId : String) : ∀ c ∈ f.conditions userId, c.2.length = c.1.places := by
  have hlisted : ∀ (c : Column) (given : Option (List String)), ∀ x ∈ (listed c given : List (Clause × List (Value F))),
      x.2.length = x.1.places := by
    intro c given x hx
    cases given with
    | none => nomatch hx
    | some values =>
      cases values with
      | nil => nomatch hx
      | cons v values =>
        obtain rfl := List.mem_singleton.mp hx
        exact List.length_map _
  have hbounded : ∀ {α : Type} (clause : Clause) (value : α → Value F) (given : Option α), clause.places = 1 →
      ∀ x ∈ bounded clause value given, x.2.length = x.1.places := by
    intro α clause value given hone x hx
    obtain ⟨v, -, rfl⟩ := List.mem_map.mp hx
    exact hone.symm
  have hexcluded : ∀ (included : Bool) (c : Column), ∀ x ∈ (excluded included c : List (Clause × List (Value F))),
      x.2.length = x.1.places := by
    intro included c x hx
    cases included with
    | true => nomatch hx
    | false =>
      obtain rfl := List.mem_singleton.mp hx
      rfl
  simp only [MemoryFilters.conditions, List.forall_mem_append, List.forall_mem_singleton]
  exact ⟨⟨⟨⟨⟨⟨⟨⟨⟨rfl, hexcluded _ _⟩, hexcluded _ _⟩, hexcluded _ _⟩, hlisted _ _⟩, hlisted _ _⟩, hbounded _ _ _ rfl⟩,
    hbounded _ _ _ rfl⟩, hbounded _ _ _ rfl⟩, hbounded _ _ _ rfl⟩

variable [Field F] [LinearOrder F]

/-- Asked about its own values, a clause says what its filter says. -/
theorem conditions_accept (f : MemoryFilters F) (userId : String) (r : MemoryRow F) :
    ((f.conditions userId).all fun c => c.1.holds c.2 r) = f.accepts userId r := by
  have hlisted : ∀ (c : Column) (s : String), r.column c = .text s → ∀ given : Option (List String),
      ((listed c given).all fun x => x.1.holds x.2 r) = given.elim true fun values => values.isEmpty || values.contains s := by
    intro c s hs given
    cases given with
    | none => rfl
    | some values =>
      cases values with
      | nil => rfl
      | cons v values =>
        have hinj : Function.Injective (Value.text (F := F)) := fun _ _ h => Value.text.inj h
        show ((((v :: values).map Value.text).contains (r.column c)) && true) = _
        rw [hs, Bool.and_true, Bool.eq_iff_iff, List.contains_iff_mem, List.mem_map_of_injective hinj]
        simp
  have hflag : ∀ (b included : Bool) (c : Column), r.column c = .integer b.toNat →
      ((excluded included c).all fun x => x.1.holds x.2 r) = (included || !b) := by
    intro b included c hb
    cases included with
    | true => rfl
    | false =>
      show ((r.column c == .integer 0) && true) = !b
      rw [hb]
      cases b <;> rfl
  have hbound : ∀ {α : Type} {clause : Clause} {value : α → Value F} {p : α → Bool}, (∀ v, clause.holds [value v] r = p v) →
      ∀ given : Option α, ((bounded clause value given).all fun x => x.1.holds x.2 r) = given.elim true p := by
    intro α clause value p hp given
    cases given with
    | none => rfl
    | some v => exact (Bool.and_true _).trans (hp v)
  have huser : ((([(.equals .userId, [.text userId])] : List (Clause × List (Value F)))).all fun x => x.1.holds x.2 r) =
      (r.userId == userId) := by
    show (([Value.text userId].contains (Value.text r.userId : Value F)) && true) = _
    rw [Bool.and_true, Bool.eq_iff_iff, List.contains_iff_mem, List.mem_singleton, beq_iff_eq, Value.text.injEq]
  have hfloor : ∀ v : F, (Clause.atLeast .retentionFloor).holds [.real v] r = decide (v ≤ r.retentionFloor) :=
      fun v => Bool.or_false _
  have himportance : ∀ v : F, (Clause.atLeast .importance).holds [.real v] r = decide (v ≤ r.importance) :=
      fun v => Bool.or_false _
  have hafter : ∀ v : Int, (Clause.atLeast .createdAt).holds [.integer v] r = decide (v ≤ r.createdAt) := fun v => Bool.or_false _
  have hbefore : ∀ v : Int, (Clause.atMost .createdAt).holds [.integer v] r = decide (r.createdAt ≤ v) := fun v => Bool.or_false _
  simp only [MemoryFilters.conditions, List.all_append, hlisted .category r.category rfl, hlisted .memoryType r.memoryType rfl,
    hflag r.isCold _ .isCold rfl, hflag r.isStub _ .isStub rfl, hflag r.isSuperseded _ .isSuperseded rfl,
    hbound hfloor, hbound himportance, hbound hafter, hbound hbefore, huser]
  unfold MemoryFilters.accepts
  cases f.categories <;> cases f.memoryTypes <;> cases f.minRetentionFloor <;> cases f.minImportance <;>
    cases f.createdAfter <;> cases f.createdBefore <;> rfl

/-- Bound by position, the values make the WHERE clause say what the filters say. -/
theorem where_accepts (f : MemoryFilters F) (userId : String) (r : MemoryRow F) :
    holdsAll Clause.places Clause.holds r f.whereClauses (f.binds userId) = f.accepts userId r := by
  rw [← conditions_clauses f userId, ← conditions_values, holdsAll_aligned _ _ (conditions_places f userId)]
  exact conditions_accept f userId r

/-- How many values the filters give, with the user's id. -/
def MemoryFilters.given (f : MemoryFilters F) : ℕ :=
  1 + (f.categories.getD []).length + (f.memoryTypes.getD []).length + f.minRetentionFloor.toList.length +
    f.minImportance.toList.length + f.createdAfter.toList.length + f.createdBefore.toList.length

omit [Field F] [LinearOrder F] in
theorem places_given (f : MemoryFilters F) (userId : String) : (f.whereClauses.map Clause.places).sum = f.given := by
  have hown : (f.whereClauses.map Clause.places) = (f.conditions userId).map fun c => c.2.length := by
    rw [← conditions_clauses f userId, List.map_map]
    exact List.map_congr_left fun c hc => (conditions_places f userId c hc).symm
  rw [hown, ← List.length_flatMap, conditions_values]
  simp only [MemoryFilters.binds, MemoryFilters.given, List.length_append, List.length_map, List.length_singleton]

/-! ## What is to hold -/

/-- The rows the filters ask for. -/
def MemoryFilters.matching (f : MemoryFilters F) (db : Db F) (userId : String) : List (MemoryRow F) :=
  db.memories.filter (f.accepts userId)

def MemoryFilters.page (f : MemoryFilters F) (p k : ℕ) :
    MemoryFilters F := { f with limit := some p, offset := some (k * p : ℕ) }

/-- The rows the filters ask for, newest first: the query answers with the slice of them that `limit` and
`offset` cut, and its pages of any size put together are all of them. -/
def Lists (sqlite : Sqlite F) (db : Db F) (userId : String) (f : MemoryFilters F) : Prop :=
  ∃ rows, rows.Perm (f.matching db userId) ∧ rows.Pairwise (fun a b => b.createdAt ≤ a.createdAt) ∧
    MemoryRepo.query sqlite db userId f = .ok (slice f.limit f.offset rows) ∧
    ∀ p, 0 < p → ∃ pages : ℕ → List (MemoryRow F), (∀ k, MemoryRepo.query sqlite db userId (f.page p k) = .ok (pages k)) ∧
      ∀ K, rows.length ≤ K * p → (List.range K).flatMap pages = rows

/-- The cut of `n` rows is a slice of them: there is no offset without a limit, and neither is negative,
except where that makes no difference. -/
def MemoryFilters.sliceable (f : MemoryFilters F) (n : ℕ) : Prop :=
  match f.limit, f.offset with
  | none, offset => offset = none
  | some limit, offset =>
    if limit < 0 then n ≤ (offset.getD 0).toNat
    else 0 ≤ offset.getD 0 ∨ limit = 0 ∨ n ≤ (offset.getD 0 + limit).toNat

/-! ## What the query answers -/

section
variable {α : Type} {limit : Int} {offset : Option Int} {l : List α}

theorem sqlLimit_take (limit : Int) (l : List α) :
    sqlLimit limit l = l.take (if limit < 0 then l.length else limit.toNat) := by
  unfold sqlLimit
  split
  · rw [List.take_length]
  · rfl

theorem slice_take (limit : Int) (offset : Option Int) (l : List α) :
    slice (some limit) offset l =
      (l.drop (offset.getD 0).toNat).take ((offset.getD 0 + limit).toNat - (offset.getD 0).toNat) := by
  rw [slice_eq, Option.elim_some, List.drop_take]

theorem cut_slice (h : (sqlLimit limit (l.drop (offset.getD 0).toNat)).length = (slice (some limit) offset l).length) :
    sqlLimit limit (l.drop (offset.getD 0).toNat) = slice (some limit) offset l := by
  rw [sqlLimit_take, slice_take] at h ⊢
  rw [List.length_take, List.length_take] at h
  exact List.take_eq_take_iff.mpr h

theorem cut_length_iff : (sqlLimit limit (l.drop (offset.getD 0).toNat)).length = (slice (some limit) offset l).length ↔
    if limit < 0 then l.length ≤ (offset.getD 0).toNat
    else 0 ≤ offset.getD 0 ∨ limit = 0 ∨ l.length ≤ (offset.getD 0 + limit).toNat := by
  rw [sqlLimit_take, slice_take, List.length_take, List.length_take, List.length_drop]
  split <;> omega

end

variable (sqlite : Sqlite F) (db : Db F) (userId : String) (f : MemoryFilters F)

def MemoryRepo.rows : List (MemoryRow F) := f.select.rows sqlite (f.binds userId) db

theorem rows_eq : MemoryRepo.rows sqlite db userId f =
    Top.ranked MemoryRow.createdAt ((sqlite.scan f.whereClauses (f.binds userId) db.memories).filter (f.accepts userId)) := by
  refine congrArg (Top.ranked MemoryRow.createdAt) (List.filter_congr fun r _ => ?_)
  exact where_accepts f userId r

theorem rows_perm : (MemoryRepo.rows sqlite db userId f).Perm (f.matching db userId) := by
  rw [rows_eq]
  exact (Top.ranked_perm _ _).trans ((sqlite.scan_perm f.whereClauses (f.binds userId) db.memories).filter _)

theorem rows_sorted : (MemoryRepo.rows sqlite db userId f).Pairwise fun a b => b.createdAt ≤ a.createdAt := by
  rw [rows_eq]
  exact Top.ranked_sorted _ _

variable {sqlite db userId f}

theorem query_of_given (h : f.given ≤ sqlite.maxVariables) :
    MemoryRepo.query sqlite db userId f = match f.limit, f.offset with
    | none, none => .ok (MemoryRepo.rows sqlite db userId f)
    | none, some _ => .error .syntaxError
    | some limit, offset => .ok (sqlLimit limit ((MemoryRepo.rows sqlite db userId f).drop (offset.getD 0).toNat)) := by
  rw [← places_given f userId] at h
  exact if_neg (not_lt_of_ge h)

theorem query_of_more (h : sqlite.maxVariables < f.given) : MemoryRepo.query sqlite db userId f = .error .syntaxError := by
  rw [← places_given f userId] at h
  exact if_pos h

/-- A page is that many of the rows, from the end of the page before. -/
theorem query_page (h : f.given ≤ sqlite.maxVariables) (p k : ℕ) : MemoryRepo.query sqlite db userId (f.page p k) =
    .ok (((MemoryRepo.rows sqlite db userId f).drop (k * p)).take p) := by
  have hquery : MemoryRepo.query sqlite db userId (f.page p k) =
      .ok (sqlLimit p ((MemoryRepo.rows sqlite db userId f).drop (k * p))) :=
    query_of_given (f := f.page p k) h
  have hpos : ¬ (p : Int) < 0 := not_lt_of_ge (Int.natCast_nonneg p)
  rw [hquery, sqlLimit, if_neg hpos, Int.toNat_natCast]

/-- The query lists what its filters ask for exactly where SQLite takes as many values as they give, and the
cut they ask for is a slice. -/
theorem query_lists_iff (sqlite : Sqlite F) (db : Db F) (userId : String) (f : MemoryFilters F) :
    Lists sqlite db userId f ↔ f.given ≤ sqlite.maxVariables ∧ f.sliceable (f.matching db userId).length := by
  constructor
  · rintro ⟨rows, hperm, -, hquery, -⟩
    have hgiven : f.given ≤ sqlite.maxVariables := by
      by_contra hmore
      rw [query_of_more (not_le.mp hmore)] at hquery
      nomatch hquery
    refine ⟨hgiven, ?_⟩
    rw [query_of_given hgiven] at hquery
    have hlength : (MemoryRepo.rows sqlite db userId f).length = rows.length :=
      ((rows_perm sqlite db userId f).trans hperm.symm).length_eq
    rw [← hperm.length_eq, MemoryFilters.sliceable]
    cases hlimit : f.limit with
    | none =>
      cases hoffset : f.offset with
      | none => rfl
      | some offset =>
        rw [hlimit, hoffset] at hquery
        nomatch hquery
    | some limit =>
      rw [hlimit] at hquery
      have hcut : (sqlLimit limit ((MemoryRepo.rows sqlite db userId f).drop (f.offset.getD 0).toNat)).length =
          (slice (some limit) f.offset rows).length := congrArg List.length (Except.ok.inj hquery)
      rw [← length_slice (some limit) f.offset hlength] at hcut
      rw [← hlength]
      exact cut_length_iff.mp hcut
  · rintro ⟨hgiven, hslice⟩
    refine ⟨MemoryRepo.rows sqlite db userId f, rows_perm .., rows_sorted .., ?_, fun p _ => ?_⟩
    · rw [← (rows_perm sqlite db userId f).length_eq, MemoryFilters.sliceable] at hslice
      rw [query_of_given hgiven]
      cases hlimit : f.limit with
      | none =>
        rw [hlimit] at hslice
        rw [show f.offset = none from hslice, slice_none]
      | some limit =>
        rw [hlimit] at hslice
        exact congrArg Except.ok (cut_slice (cut_length_iff.mpr hslice))
    · exact ⟨_, query_page hgiven p, fun K hK => pages_all hK⟩

/-- With the rows by rowid, the query is the SELECT that the daemon's statements answer with. -/
theorem query_byRowid {n : ℕ} (h : f.given ≤ n) : MemoryRepo.query (Sqlite.byRowid n) db userId f =
    db.queryMemories userId f := by
  have hrows : MemoryRepo.rows (Sqlite.byRowid n) db userId f =
      (db.memories.filter (f.accepts userId)).insertionSort fun a b => b.createdAt ≤ a.createdAt := rows_eq ..
  have hquery : MemoryRepo.query (Sqlite.byRowid n) db userId f = _ := query_of_given h
  rw [hquery, hrows]
  unfold Db.queryMemories
  cases f.limit <;> cases f.offset <;> rfl

/-! ## An offset alone -/

def twoOfOneSecond : Db ℚ :=
  { Db.empty with memories := [.newMinimal "mem_a" "alice" "tea" "semantic" "semantic" 100,
      .newMinimal "mem_b" "alice" "milk" "semantic" "semantic" 100] }

def fromSecond : MemoryFilters ℚ := ⟨none, none, none, none, none, none, none, some 1, false, false, false⟩

/-- Asked for what follows the first memory, with no limit, the query sends `ORDER BY created_at DESC OFFSET 1`. -/
theorem offset_alone_rejected : ¬ ∀ (sqlite : Sqlite ℚ) (db : Db ℚ) (userId : String) (f : MemoryFilters ℚ),
    Lists sqlite db userId f := by
  intro h
  obtain ⟨rows, -, -, hquery, -⟩ := h (Sqlite.byRowid 32766) twoOfOneSecond "alice" fromSecond
  have hgiven : fromSecond.given ≤ 32766 := by decide
  have hrejected : MemoryRepo.query (Sqlite.byRowid 32766) twoOfOneSecond "alice" fromSecond = _ := query_of_given hgiven
  rw [hrejected] at hquery
  nomatch hquery

end CognitiveMemory
