import CognitiveMemory.Daemon.Atomicity
import CognitiveMemory.Daemon.Ingest
import CognitiveMemory.Daemon.Tenancy

/-! A batch of one memory against a store of it: two handlers that build the same row, of which only one
looks for the memories that the new one resembles. -/

namespace CognitiveMemory
open Prog
variable {F : Type}

/-! ## The two requests -/

variable [Field F] [LinearOrder F]

def Db.LeavesAlone (db : Db F) (hit : SearchResult F) : Prop :=
  hit.score < 4 / 10 ∨
    (75 / 100 ≤ hit.score ∧ hit.score < 85 / 100) ∧ ∀ m ∈ db.memories, m.id = hit.memoryId → m.stability = 1

def Db.Settled [Elementary F] (app : AppState F) (userId newId : String) (vector : List F) (now : Int) (db : Db F) : Prop :=
  vector = [] ∨ (∃ m, db.Candidate userId (ingestOptions app now) m ∧ ¬ m.hasDim vector.length) ∨
    ∀ hit ∈ (db.denseHits app.lifecycle userId vector (ingestOptions app now)).take 5,
      hit.memoryId ≠ newId → db.LeavesAlone hit

section
variable {bm25 : Bm25 F} {app : AppState F} {userId newId : String} {vector : List F} {now : Int}
  {db db' : Db F} {w : World F}

/-! ## The transaction -/

variable [Elementary F]

omit [Field F] [LinearOrder F] [Elementary F] in
theorem Db.SameTables.refl (db : Db F) : db.SameTables db := ⟨rfl, rfl, rfl⟩

def World.tick (w : World F) : World F := { w with oracle := w.oracle.nextClock }

def World.drawn (w : World F) (owner : String) : World F :=
  { w with oracle := w.oracle.nextUlid.nextClock, minted := (w.oracle.ulid 0, owner) :: w.minted }

variable {user : String} {e : BatchMemoryEntry} {weight : F} {w₁ : World F}

end

/-! ### Tea, twice -/

end CognitiveMemory
