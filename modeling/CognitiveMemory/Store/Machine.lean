import CognitiveMemory.Lib.Wp
import CognitiveMemory.Store.Sql
import Mathlib.Data.List.Infix
import Mathlib.Algebra.Order.Group.Unbundled.Abs

/-! The machine the daemon's code runs on: one database, and everything the code does not
control, as streams of what will be answered. A request is a `Prog` over `Cmd`. -/

namespace CognitiveMemory

/-- The answers still to come from outside the code. -/
structure Oracle where
  /-- Readings of the wall clock, in unix seconds. -/
  clock : ℕ → Int
  ulid : ℕ → String
  uuid : ℕ → String
  /-- Iteration orders of freshly seeded hash maps. -/
  order : ℕ → List String → List String
  order_perm : ∀ n l, (order n l).Perm l
  /-- Whether the next call of the embedding provider fails. -/
  providerFault : ℕ → Bool
  /-- Completions of the LLM. -/
  llm : ℕ → String → Except String String
  /-- Whether the next statement fails below SQLite. -/
  sqlFault : ℕ → Bool

namespace Oracle

def nextClock (o : Oracle) : Oracle := { o with clock := fun n => o.clock (n + 1) }
def nextUlid (o : Oracle) : Oracle := { o with ulid := fun n => o.ulid (n + 1) }
def nextUuid (o : Oracle) : Oracle := { o with uuid := fun n => o.uuid (n + 1) }
def nextOrder (o : Oracle) : Oracle :=
  { o with order := fun n => o.order (n + 1), order_perm := fun n => o.order_perm (n + 1) }
def nextProvider (o : Oracle) : Oracle := { o with providerFault := fun n => o.providerFault (n + 1) }
def skipLlm (o : Oracle) (k : ℕ) : Oracle := { o with llm := fun n => o.llm (n + k) }
def nextSql (o : Oracle) : Oracle := { o with sqlFault := fun n => o.sqlFault (n + 1) }

def quiet : Oracle where
  clock _ := 0
  ulid n := String.ofList (List.replicate n 'a')
  uuid _ := ""
  order _ keys := keys
  order_perm _ _ := .refl _
  providerFault _ := false
  llm _ _ := .error "no model"
  sqlFault _ := false

end Oracle

/-- The database, the ULIDs drawn so far with the user each was drawn for, and what is still
to come. The second component is a ghost: no statement reads it. -/
structure World (F : Type) where
  db : Db F
  minted : List (String × String)
  oracle : Oracle

structure EmbeddingProvider (F : Type) where
  name : String
  model : String
  embed : String → Except String (List F)

inductive ConflictLabel
  | contradiction
  | update
  | overlap
  | none_
  deriving DecidableEq, Repr

/-- `char::to_uppercase` on the characters that become a letter A–Z. -/
def uppercase (c : Char) : Char :=
  if c = 'ı' then 'I' else if c = 'ſ' then 'S' else c.toUpper

def parseConflictLabel (raw : String) : ConflictLabel :=
  let upper := raw.toList.map uppercase
  if "CONTRADICTION".toList <:+: upper then .contradiction
  else if "UPDATE".toList <:+: upper then .update
  else if "OVERLAP".toList <:+: upper then .overlap
  else .none_

def conflictJudgePrompt : String :=
  "Does the new memory contradict or update an existing memory?\n\nExisting memory: \"{existing}\"\n" ++
  "New memory: \"{new}\"\n\nRespond with exactly one word: CONTRADICTION, UPDATE, OVERLAP, or NONE.\n" ++
  "- CONTRADICTION: the new memory directly negates the existing one\n" ++
  "- UPDATE: the new memory is a newer version of the same fact\n" ++
  "- OVERLAP: they cover similar ground but don't conflict\n" ++
  "- NONE: they are unrelated"

variable {F : Type} [Field F] [LinearOrder F]

/-- The loser of a pair points at the winner and at itself as contradicted; a core loser is
demoted. -/
def Db.supersede (db : Db F) (winner loser : MemoryRow F) : Db F :=
  let db := db.modify (fun r => r.id == loser.id) fun r =>
    { r with isSuperseded := true, supersededBy := some winner.id, contradictedBy := some winner.id }
  if loser.category = "core" then
    db.modify (fun r => r.id == loser.id) fun r => { r with category := "semantic", retentionFloor := 0 }
  else db

/-- UPDATE lifts the winner's importance to the larger of the two, past `f64::EPSILON`. -/
def Db.liftImportance (db : Db F) (n e : MemoryRow F) : Db F :=
  if 1 / 2 ^ 52 < |max n.importance e.importance - n.importance| then
    db.modify (fun r => r.id == n.id) fun r => { r with importance := max n.importance e.importance }
  else db

def Db.applyLabel (llm : Bool) (db : Db F) (n e : MemoryRow F) : ConflictLabel → Db F × ℕ
  | .contradiction =>
    if llm then (db.supersede n e, 1)
    else if e.importance < n.importance ∨ (n.importance = e.importance ∧ e.createdAt < n.createdAt) then
      (db.supersede n e, 1)
    else (db.supersede e n, 1)
  | .update =>
    if llm then ((db.liftImportance n e).supersede n e, 1)
    else if e.importance < n.importance ∨ (n.importance = e.importance ∧ e.createdAt < n.createdAt) then
      (db.supersede n e, 1)
    else (db.supersede e n, 1)
  | .overlap | .none_ => (db, 0)

/-- Progress of the resolving transaction: the database, the pairs resolved, the LLM calls made. -/
structure Resolving (F : Type) where
  db : Db F
  resolved : ℕ
  calls : ℕ

def Resolving.judge (llm : Bool) (answers : ℕ → String → Except String String) (acc : Resolving F)
    (n e : MemoryRow F) : ConflictLabel × ℕ :=
  if llm then
    match answers acc.calls ((conflictJudgePrompt.replace "{existing}" e.content).replace "{new}" n.content) with
    | .ok raw => (parseConflictLabel raw, 1)
    | .error _ => (.none_, 1)
  else (.contradiction, 0)

/-- Both rows of a queued pair are read again inside the transaction. -/
def Resolving.resolve (llm : Bool) (answers : ℕ → String → Except String String) (acc : Resolving F)
    (p : ConflictPair) : Resolving F :=
  match acc.db.memories.find? (owned p.userId p.newMemoryId),
      acc.db.memories.find? (owned p.userId p.existingMemoryId) with
  | some n, some e =>
    if !n.isSuperseded && !e.isSuperseded then
      let verdict := acc.judge llm answers n e
      let r := acc.db.applyLabel llm n e verdict.1
      ⟨r.1, acc.resolved + r.2, acc.calls + verdict.2⟩
    else acc
  | _, _ => acc

/-- The queue entry goes whatever became of the pair. -/
def Resolving.dequeue (acc : Resolving F) (p : ConflictPair) : Resolving F :=
  { acc with db := { acc.db with conflictQueue := acc.db.conflictQueue.filter (·.id != p.id) } }

def Resolving.pair (llm : Bool) (answers : ℕ → String → Except String String) (acc : Resolving F)
    (p : ConflictPair) : Resolving F :=
  (acc.resolve llm answers p).dequeue p

/-- One atomic step of the daemon's code. -/
inductive Cmd (F : Type)
  | clock
  | ulid (owner : String)
  | uuid
  | order (keys : List String)
  | provider (p : EmbeddingProvider F) (text : String)
  | llm (prompt : String) (maxTokens : ℕ)
  | query (q : Query F)
  | write (w : Write F)
  | resolveConflicts (llm : Bool) (pairs : List ConflictPair)

@[reducible] def Cmd.Res {F : Type} : Cmd F → Type
  | .clock => Int
  | .ulid _ | .uuid => String
  | .order _ => List String
  | .provider .. => Except String (List F)
  | .llm .. => Except String String
  | .query q => Except SqlError q.Res
  | .write w => Except SqlError w.Res
  | .resolveConflicts .. => Except SqlError ℕ

def World.answer (w : World F) (db : Db F) : World F := { w with db := db, oracle := w.oracle.nextSql }

def exec (bm25 : Bm25 F) : (c : Cmd F) → World F → c.Res × World F
  | .clock, w => (w.oracle.clock 0, { w with oracle := w.oracle.nextClock })
  | .ulid owner, w => (w.oracle.ulid 0,
      { w with oracle := w.oracle.nextUlid, minted := (w.oracle.ulid 0, owner) :: w.minted })
  | .uuid, w => (w.oracle.uuid 0, { w with oracle := w.oracle.nextUuid })
  | .order keys, w => (w.oracle.order 0 keys, { w with oracle := w.oracle.nextOrder })
  | .provider p text, w => (if w.oracle.providerFault 0 then .error "unavailable" else p.embed text,
      { w with oracle := w.oracle.nextProvider })
  | .llm prompt _, w => (w.oracle.llm 0 prompt, { w with oracle := w.oracle.skipLlm 1 })
  | .query q, w => (if w.oracle.sqlFault 0 then .error .io else q.eval bm25 w.db, w.answer w.db)
  | .write c, w =>
    if w.oracle.sqlFault 0 then (.error .io, w.answer w.db)
    else match c.apply w.db with
      | .ok (r, db) => (.ok r, w.answer db)
      | .error e => (.error e, w.answer w.db)
  | .resolveConflicts llm pairs, w =>
    if w.oracle.sqlFault 0 then (.error .io, w.answer w.db)
    else
      let r := pairs.foldl (Resolving.pair llm w.oracle.llm) ⟨w.db, 0, 0⟩
      (.ok r.resolved, { w.answer r.db with oracle := (w.oracle.skipLlm r.calls).nextSql })

abbrev Repo (F α : Type) := Prog (Cmd F) Cmd.Res SqlError α

def query (q : Query F) : Repo F q.Res := Prog.cmd (.query q) Prog.ofExcept

def write (w : Write F) : Repo F w.Res := Prog.cmd (.write w) Prog.ofExcept

theorem run_query {bm25 : Bm25 F} {w : World F} {q : Query F} {r : q.Res} (hf : w.oracle.sqlFault 0 = false)
    (h : q.eval bm25 w.db = .ok r) : (query q).run (exec bm25) w = (.ok r, w.answer w.db) := by
  simp [query, exec, hf, h, Prog.ofExcept]

theorem run_write {bm25 : Bm25 F} {w : World F} {c : Write F} {r : c.Res} {db : Db F}
    (hf : w.oracle.sqlFault 0 = false) (h : c.apply w.db = .ok (r, db)) :
    (write c).run (exec bm25) w = (.ok r, w.answer db) := by
  simp [write, exec, hf, h, Prog.ofExcept]

theorem run_query_fault {bm25 : Bm25 F} {w : World F} {q : Query F} (hf : w.oracle.sqlFault 0 = true) :
    (query q).run (exec bm25) w = (.error .io, w.answer w.db) := by
  simp [query, exec, hf, Prog.ofExcept]

theorem run_write_fault {bm25 : Bm25 F} {w : World F} {c : Write F} (hf : w.oracle.sqlFault 0 = true) :
    (write c).run (exec bm25) w = (.error .io, w.answer w.db) := by
  simp [write, exec, hf, Prog.ofExcept]

theorem run_write_rejected {bm25 : Bm25 F} {w : World F} {c : Write F} {e : SqlError} (hf : w.oracle.sqlFault 0 = false)
    (h : c.apply w.db = .error e) : (write c).run (exec bm25) w = (.error e, w.answer w.db) := by
  simp [write, exec, hf, h, Prog.ofExcept]

theorem ends_query {bm25 : Bm25 F} {w : World F} {q : Query F} : (query q).ends (exec bm25) (fun answer w' =>
    w' = w.answer w.db ∧ answer = if w.oracle.sqlFault 0 then .error .io else q.eval bm25 w.db) w := by
  rw [Prog.ends_run]
  cases hfault : w.oracle.sqlFault 0 with
  | true =>
    rw [run_query_fault hfault]
    exact ⟨rfl, rfl⟩
  | false =>
    have hrun : (query q).run (exec bm25) w =
        (Prog.ofExcept (q.eval bm25 w.db) : Repo F q.Res).run (exec bm25) (w.answer w.db) := by
      simp [query, exec, hfault]
    rw [hrun]
    cases q.eval bm25 w.db <;> exact ⟨rfl, rfl⟩

/-- A statement fails below SQLite, is refused, or has its effect. -/
theorem ends_write {bm25 : Bm25 F} {w : World F} {c : Write F} :
    (write c).ends (exec bm25) (fun answer w' => match answer with
    | .ok a => w.oracle.sqlFault 0 = false ∧ c.apply w.db = .ok (a, w'.db)
    | .error e => w'.db = w.db ∧ (w.oracle.sqlFault 0 = true ∨ c.apply w.db = .error e)) w := by
  rw [Prog.ends_run]
  cases hfault : w.oracle.sqlFault 0 with
  | true =>
    rw [run_write_fault hfault]
    exact ⟨rfl, .inl rfl⟩
  | false =>
    cases happly : c.apply w.db with
    | error e =>
      rw [run_write_rejected hfault happly]
      exact ⟨rfl, .inr rfl⟩
    | ok p =>
      rw [run_write hfault happly]
      exact ⟨rfl, rfl⟩

theorem wp_write {bm25 : Bm25 F} {w : World F} {c : Write F} :
    (write c).wp (exec bm25) (fun a w' => c.apply w.db = .ok (a, w'.db)) (fun _ => True) w := by
  rw [Prog.wp_run]
  refine ⟨fun a w' hrun => ?_, fun _ _ _ => trivial⟩
  have hends : (write c).ends (exec bm25) _ w := ends_write
  rw [Prog.ends_run, hrun] at hends
  exact hends.2

def unixNow {F ε : Type} : Prog (Cmd F) Cmd.Res ε Int := Prog.call Cmd.clock

/-! ## `MemoryRepo` and `AssociationRepo`: the methods that are more than one statement -/

def getManyForUser (userId : String) (ids : List String) : Repo F (List (MemoryRow F)) :=
  if ids.isEmpty then pure [] else query (.getManyForUser userId ids)

def update (userId id : String) (upd : MemoryUpdate F) : Repo F Bool :=
  if upd.isEmpty then pure false else do
    let n : ℕ ← write (.updateMemory userId id upd)
    pure (decide (0 < n))

def unlessEmpty {α : Type} (xs : List α) (p : Repo F ℕ) : Repo F ℕ :=
  if xs.isEmpty then pure 0 else p

def deleteMany (userId : String) (ids : List String) : Repo F ℕ :=
  unlessEmpty ids (write (.deleteMany userId ids))

def applyDirectBoost (userId : String) (boosts : List (String × F)) (now : Int) (sessionId : String) : Repo F ℕ :=
  unlessEmpty boosts (write (.applyDirectBoost userId boosts now sessionId))

def promoteToCore (userId : String) (ids : List String) : Repo F ℕ :=
  unlessEmpty ids (write (.promoteToCore userId ids))

def updateRetentionScores (userId : String) (updates : List (String × F)) : Repo F ℕ :=
  unlessEmpty updates (write (.updateRetentionScores userId updates))

def markSuperseded (userId : String) (ids : List String) (summaryId : String) : Repo F ℕ :=
  unlessEmpty ids (write (.markSuperseded userId ids summaryId))

def migrateToHotMany (userId : String) (ids : List String) : Repo F ℕ :=
  unlessEmpty ids (write (.migrateToHotMany userId ids))

def strengthenPairs (pairs : List (String × String)) (amount : F) (now : Int) (kind : String) : Repo F ℕ :=
  unlessEmpty pairs (write (.strengthenPairs pairs amount now kind))

/-- The read goes to the reader pool, the absolute write to the writer. -/
def createOrStrengthen (sourceId targetId : String) (bump : F) (now : Int) (kind : String) : Repo F F := do
  let existing ← query (.edgeWeight sourceId targetId)
  write (.upsertEdge sourceId targetId existing bump now kind)

def linkBidirectional (a b : String) (bump : F) (now : Int) (kind : String) : Repo F F := do
  let w1 ← createOrStrengthen a b bump now kind
  let _w2 ← createOrStrengthen b a bump now kind
  pure w1

def attachEdges (edges : List (NeighborEdge F)) (mems : List (MemoryRow F)) : List (LinkedMemory F) :=
  mems.filterMap fun m => (edges.find? (·.targetId == m.id)).map fun e => ⟨m, e.weight, e.lastCoRetrieval⟩

/-- The user's memories at the far ends of these edges; the join is on the memory's owner. -/
def memoriesAt (userId : String) (edges : List (NeighborEdge F)) : Repo F (List (LinkedMemory F)) :=
  if edges.isEmpty then pure [] else do
    let mems ← getManyForUser userId (edges.map NeighborEdge.targetId)
    pure (attachEdges edges mems)

def linkedFor (userId sourceId : String) (minWeight : F) : Repo F (List (LinkedMemory F)) := do
  let edges ← query (.edgesFrom sourceId minWeight)
  memoriesAt userId edges

def linkedForMany (userId : String) (sourceIds : List String) (minWeight : F) : Repo F (List (LinkedMemory F)) :=
  if sourceIds.isEmpty then pure [] else do
    let edges ← query (.edgesFromMany sourceIds minWeight)
    memoriesAt userId edges

end CognitiveMemory
