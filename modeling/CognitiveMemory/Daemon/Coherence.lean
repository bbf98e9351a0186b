import CognitiveMemory.Daemon.Tenancy

/-! Embedding coherence: stored vectors against stored texts. -/

namespace CognitiveMemory
variable {F : Type}

/-- The vectors of deterministic providers, and the cache rows that hold one of them under the
hash of its text. -/
def providerSpec (P : String → String → String → Except String (List F)) (sha256 : String → List UInt8) :
    EmbeddingSpec F where
  good provider model text v := P provider model text = .ok v
  cached c := ∀ text, sha256 text = c.textHash → P c.provider c.model text = .ok c.embedding

/-- The daemon embeds with the provider of its name and model. -/
structure Provided (P : String → String → String → Except String (List F)) (sha256 : String → List UInt8)
    (t : Caller F) : Prop where
  embed : t.app.embeddings.embed = P t.app.embeddings.name t.app.embeddings.model
  sha256 : t.app.sha256 = sha256

section
variable {P : String → String → String → Except String (List F)} {sha256 : String → List UInt8}

theorem Provided.serves (hsha : Function.Injective sha256) (t : Caller F) (h : Provided P sha256 t) :
    (providerSpec P sha256).Serves t.app := by
  refine ⟨fun text v hv => ?_, fun text v => ⟨fun hc => hc text ?_, fun hgood text' heq => ?_⟩⟩
  · rw [h.embed] at hv
    exact hv
  · rw [h.sha256]
  · rw [h.sha256] at heq
    rw [hsha heq]
    exact hgood

/-- An Update that sets the text of an embedded memory gives it one with the same vector. -/
def KeepsVector (P : String → String → String → Except String (List F)) (t : Caller F) (w : World F) : Cmd F → Prop
  | .write (.updateMemory userId id upd) => t.isUpdate → ∀ content, upd.content = some content →
      ∀ r ∈ w.db.memories, owned userId id r → r.embedding.isSome → ∀ provider model,
        r.embeddingProvider = some provider → r.embeddingModel = some model →
          P provider model (canonicalise content) = P provider model (canonicalise r.content)
  | _ => True

theorem coherent_set {t : Caller F} {w : World F} {userId id : String} {upd : MemoryUpdate F} {r : MemoryRow F}
    (hr : r ∈ w.db.memories) (ho : owned userId id r) (h : r.Coherent (providerSpec P sha256))
    (hc : upd.content = none ∨ t.isUpdate) (hg : KeepsVector P t w (.write (.updateMemory userId id upd))) :
    (upd.set r).Coherent (providerSpec P sha256) := by
  intro v hv
  obtain ⟨provider, model, hp, hm, hgood⟩ := h v hv
  refine ⟨provider, model, hp, hm, ?_⟩
  cases hcontent : upd.content with
  | none =>
    have hsame : (upd.set r).content = r.content := by simp [MemoryUpdate.set, hcontent]
    rw [hsame]
    exact hgood
  | some content =>
    have hnew : (upd.set r).content = content := by simp [MemoryUpdate.set, hcontent]
    have hupdate : t.isUpdate := hc.resolve_left (by simp [hcontent])
    have hsome : r.embedding.isSome := Option.isSome_iff_exists.mpr ⟨v, hv⟩
    rw [hnew]
    exact (hg hupdate content hcontent r hr ho hsome provider model hp hm).trans hgood

variable [Field F] [LinearOrder F]

theorem coherent_exec {spec : EmbeddingSpec F} (bm25 : Bm25 F) {t : Caller F} {w : World F} {c : Cmd F}
    (h : ∀ r ∈ w.db.memories, r.Coherent spec) (hmay : t.may spec w c)
    (hset : ∀ userId id upd, c = .write (.updateMemory userId id upd) → ∀ r ∈ w.db.memories, owned userId id r →
      (upd.set r).Coherent spec) : ∀ r ∈ (exec bm25 c w).2.db.memories, r.Coherent spec := by
  have hfollows : ∀ {db : Db F}, db.Follows w.db → ∀ r ∈ db.memories, r.Coherent spec := by
    intro db hf r hr
    obtain ⟨r₀, hr₀, hfr⟩ := hf.mem hr
    exact (h r₀ hr₀).follows hfr
  cases c with
  | write wr =>
    simp only [exec]
    split
    · exact h
    · split
      · intro r hr
        rcases Write.rows ‹_› hr with ⟨r₀, hr₀, hfr⟩ | rfl | ⟨userId, id, upd, rfl, r₀, hr₀, ho, rfl⟩
        · exact (h r₀ hr₀).follows hfr
        · exact hmay.2.2
        · exact hset userId id upd rfl r₀ hr₀ ho
      · exact h
  | resolveConflicts llm pairs =>
    simp only [exec]
    split
    · exact h
    · exact hfollows (resolving_effects llm w.oracle.llm pairs ⟨w.db, 0, 0⟩).1
  | _ => exact h

/-- As long as no Update gives an embedded memory a text with another vector, every vector in
the store is that of its row's text, whatever requests ran and however they interleaved. -/
theorem coherent_of_keepsVector [Elementary F] (hsha : Function.Injective sha256) {bm25 : Bm25 F} {w : World F}
    (h : Reachable bm25 (Provided P sha256) (KeepsVector P) w) :
    ∀ r ∈ w.db.memories, r.Coherent (providerSpec P sha256) :=
  h.keeps (Provided.serves hsha) (fun w₀ h₀ => by simp [h₀.db, Db.empty])
    fun t w c hs hJ hall hg => coherent_exec bm25 hJ hall fun userId id upd heq r hr ho => by
      subst heq
      exact coherent_set hr ho (hJ r hr) hall.2 hg

end

/-! ### Tea and the rest -/

def taste (_ _ text : String) : Except String (List ℚ) := .ok [if text = "tea" then 1 else 0]

def utf8 (text : String) : List UInt8 := text.toByteArray.data.toList

theorem utf8_injective : Function.Injective utf8 := by
  intro a b h
  have hdata : a.toByteArray.data = b.toByteArray.data := Array.toList_inj.mp h
  exact String.toByteArray_inj.mp (ByteArray.ext hdata)

def AppState.taster : AppState ℚ where
  embeddings := ⟨"taste", "taste-1", taste "taste" "taste-1"⟩
  llm := false
  lifecycle := .default
  sha256 := utf8

def storeTea : Caller ℚ := { batch "alice" ["tea"] with app := .taster }

def updateTo (text : String) : Caller ℚ where
  app := .taster
  user := "alice"
  request := .memory (.update { userId := "alice", id := "mem_", content := some text })

theorem coherent_after_store : (storeTea.serve Bm25.none World.quiet).db.memories.length = 1 ∧
    ∀ r ∈ (storeTea.serve Bm25.none World.quiet).db.memories, r.Coherent (providerSpec taste utf8) := by
  refine ⟨by decide +kernel, ?_⟩
  refine coherent_of_keepsVector utf8_injective (quiet_start.reachable.serve ⟨rfl, rfl⟩ fun w c => ?_)
  have hno : ¬ storeTea.isUpdate := by
    rintro ⟨args, hreq⟩
    cases hreq
  cases c with
  | write wr =>
    cases wr with
    | updateMemory => exact fun hupdate => absurd hupdate hno
    | _ => trivial
  | _ => trivial

/-- The row says coffee, its vector is still that of tea. -/
theorem update_keeps_old_vector : ¬ ∀ w : World ℚ, Reachable Bm25.none (Provided taste utf8) anyStep w →
    ∀ r ∈ w.db.memories, r.Coherent (providerSpec taste utf8) := by
  intro h
  have hr : Reachable Bm25.none (Provided taste utf8) anyStep
      ((updateTo "coffee").serve Bm25.none (storeTea.serve Bm25.none World.quiet)) :=
    (quiet_start.reachable.serve ⟨rfl, rfl⟩ fun _ _ => trivial).serve ⟨rfl, rfl⟩ fun _ _ => trivial
  have hrow : ∃ r ∈ ((updateTo "coffee").serve Bm25.none (storeTea.serve Bm25.none World.quiet)).db.memories,
      r.content = "coffee" ∧ r.embedding = some [1] := by
    decide +kernel
  obtain ⟨r, hmem, hcontent, hvector⟩ := hrow
  obtain ⟨provider, model, -, -, hgood⟩ := h _ hr r hmem [1] hvector
  have hcoffee : taste provider model (canonicalise "coffee") ≠ .ok [1] := by
    have hne : canonicalise "coffee" ≠ "tea" := by decide +kernel
    simp [taste, hne]
  rw [hcontent] at hgood
  exact hcoffee hgood

end CognitiveMemory
