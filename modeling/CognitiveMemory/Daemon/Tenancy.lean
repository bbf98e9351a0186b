import CognitiveMemory.Daemon.Requests
import CognitiveMemory.Store.Integrity

/-! The states the daemon can reach, and tenant separation of the association graph in them. -/

namespace CognitiveMemory
open Prog
variable {F : Type}

/-! ## Reachable states -/

/-- A daemon on a new store, with unique ULIDs to come. -/
structure World.Start (w : World F) : Prop where
  db : w.db = Db.empty
  minted : w.minted = []
  distinct : Function.Injective w.oracle.ulid

theorem World.Start.sound {w : World F} (h : w.Start) (spec : EmbeddingSpec F) : w.Sound spec := by
  refine ⟨?_, ?_, h.distinct, ?_, ?_, ?_⟩
  · simp [h.minted]
  · simp [h.minted]
  · simp [h.db, Db.empty]
  · simp [h.db, Db.empty]
  · simp [h.db, Db.empty]

section

variable [Field F] [LinearOrder F] [Elementary F]

def Serving (admits : Caller F → Prop) (t : Caller F) (p : HandlerM F (ResponseData F)) : Prop :=
  admits t ∧ p = handleRequest t.app t.request t.user

/-- Some interleaving of requests leads from a new store to `w`, every command meeting the guard. -/
def Reachable (bm25 : Bm25 F) (admits : Caller F → Prop) (guard : Caller F → World F → Cmd F → Prop) (w : World F) : Prop :=
  ∃ w₀ ts, w₀.Start ∧ Reach (exec bm25) (Serving admits) guard w₀ ⟨w, ts⟩

def Caller.serve (bm25 : Bm25 F) (t : Caller F) (w : World F) : World F :=
  ((handleRequest t.app t.request t.user).run (exec bm25) w).2

variable {bm25 : Bm25 F} {admits : Caller F → Prop} {guard : Caller F → World F → Cmd F → Prop}

theorem World.Start.reachable {w : World F} (h : w.Start) : Reachable bm25 admits guard w := ⟨w, [], h, .refl⟩

theorem Reachable.serve {w : World F} (h : Reachable bm25 admits guard w) {t : Caller F} (ht : admits t)
    (hg : ∀ w c, guard t w c) : Reachable bm25 admits guard (t.serve bm25 w) := by
  obtain ⟨w₀, ts, h₀, hr⟩ := h
  obtain ⟨ts', hr'⟩ := reach_run hr ⟨ht, rfl⟩ hg
  exact ⟨w₀, ts', h₀, hr'⟩

section
variable {spec : EmbeddingSpec F} (hserves : ∀ t, admits t → spec.Serves t.app)
include hserves

theorem emits_serving (bm25 : Bm25 F) (t : Caller F) (p : HandlerM F (ResponseData F)) (w : World F)
    (hp : Serving admits t p) (hw : w.Sound spec) : (contract spec bm25).Emits t p (fun _ _ => True) w := by
  rw [hp.2]
  exact emits_request hw (hserves t hp.1)

theorem Reachable.sound {w : World F} (h : Reachable bm25 admits guard w) : w.Sound spec := by
  obtain ⟨w₀, ts, h₀, hr⟩ := h
  exact ((contract spec bm25).reach_inv (emits_serving hserves bm25) hr (h₀.sound spec)).1

/-- What a new store satisfies and every allowed and guarded command keeps. -/
theorem Reachable.keeps {w : World F} (h : Reachable bm25 admits guard w) {J : World F → Prop}
    (h₀ : ∀ w₀ : World F, w₀.Start → J w₀)
    (hJ : ∀ t w c, w.Sound spec → J w → t.may spec w c → guard t w c → J (exec bm25 c w).2) : J w := by
  obtain ⟨w₀, ts, hstart, hr⟩ := h
  exact (contract spec bm25).reach_keeps (emits_serving hserves bm25) hJ hr (hstart.sound spec) (h₀ w₀ hstart)

end

def anyCaller (_ : Caller F) : Prop := True

def anyStep (_ : Caller F) (_ : World F) (_ : Cmd F) : Prop := True

theorem Reachable.anyone {w : World F} (h : Reachable bm25 admits guard w) : Reachable bm25 anyCaller anyStep w := by
  obtain ⟨w₀, ts, hstart, hr⟩ := h
  refine ⟨w₀, ts, hstart, Relation.ReflTransGen.mono (fun a b hstep => ?_) _ _ hr⟩
  cases hstep with
  | spawn hentry => exact .spawn ⟨trivial, hentry.2⟩
  | exec htask _ => exact .exec htask trivial

omit [Field F] [LinearOrder F] [Elementary F] in
theorem any_serves (t : Caller F) (_ : anyCaller t) : EmbeddingSpec.any.Serves t.app := EmbeddingSpec.any_serves t.app

theorem Reachable.keyed {w : World F} (h : Reachable bm25 anyCaller guard w) : w.db.Keyed :=
  h.keeps (J := fun w => w.db.Keyed) any_serves (fun w₀ h₀ => by simp [Db.Keyed, h₀.db, Db.empty])
    fun _ _ _ _ hJ _ _ => keyed_exec bm25 hJ

theorem Reachable.joined {w : World F} (h : Reachable bm25 anyCaller guard w) : w.db.Joined :=
  h.keeps (J := fun w => w.db.Joined) any_serves (fun w₀ h₀ => by simp [Db.Joined, h₀.db, Db.empty])
    fun _ _ _ _ hJ _ _ => joined_exec bm25 hJ

end

/-! ## The association graph -/

/-- No row of `associations` joins memories of two users. -/
def Db.TenantSeparated (db : Db F) : Prop :=
  ∀ e ∈ db.associations, ∀ r ∈ db.memories, ∀ r' ∈ db.memories,
    r.id = e.sourceMemoryId → r'.id = e.targetMemoryId → r.userId = r'.userId

/-- The edge a Link writes does not name memories of two users. -/
def LinksApart (t : Caller F) (w : World F) : Cmd F → Prop
  | .write (.upsertEdge a b ..) => t.links a b →
      ∀ r ∈ w.db.memories, ∀ r' ∈ w.db.memories, r.id = a → r'.id = b → r.userId = r'.userId
  | _ => True

def World.EdgesOwned (w : World F) : Prop :=
  ∀ e ∈ w.db.associations, ∃ u, MintedFor w e.sourceMemoryId u ∧ MintedFor w e.targetMemoryId u

theorem World.EdgesOwned.separated {spec : EmbeddingSpec F} {w : World F} (hw : w.Sound spec) (h : w.EdgesOwned) :
    w.db.TenantSeparated := by
  intro e he r hr r' hr' hs ht
  obtain ⟨u, hu, hu'⟩ := h e he
  rw [← hs] at hu
  rw [← ht] at hu'
  exact (MintedFor.unique hw (hw.rows r hr) hu).trans (MintedFor.unique hw (hw.rows r' hr') hu').symm

theorem World.EdgesOwned.from {w w' : World F} (h : w.EdgesOwned) (hm : w.minted ⊆ w'.minted)
    {new : String → String → Prop} (hd : w'.db.EdgesFrom w.db new)
    (hnew : ∀ a b, new a b → ∃ u, MintedFor w' a u ∧ MintedFor w' b u) : w'.EdgesOwned := by
  intro e he
  rcases hd e he with ⟨e₀, he₀, hs, ht⟩ | hn
  · obtain ⟨u, hu, hu'⟩ := h e₀ he₀
    rw [hs] at hu
    rw [ht] at hu'
    exact ⟨u, hu.mono hm, hu'.mono hm⟩
  · exact hnew _ _ hn

variable [Field F] [LinearOrder F]

/-- The five writers of edges: what they join was drawn for one user. -/
theorem edgesOwned_write {spec : EmbeddingSpec F} {t : Caller F} {w : World F} (hw : w.Sound spec) (h : w.EdgesOwned)
    {wr : Write F} (hmay : t.mayWrite spec w wr) (hg : LinksApart t w (.write wr)) {a : wr.Res} {db : Db F}
    (happly : wr.apply w.db = .ok (a, db)) : (w.answer db).EdgesOwned := by
  cases wr with
  | upsertEdge s d existing bump now kind =>
    obtain ⟨db', hdb', hp⟩ := map_ok happly
    cases hp
    intro e he
    rcases upsertAssociation_endpoints hdb' (fun _ => ⟨rfl, rfl⟩) e he with ⟨e₀, he₀, hs, ht⟩ | ⟨rfl, hs, ht⟩
    · rw [← hs, ← ht]
      exact h e₀ he₀
    · rcases hmay with hown | hlink
      · exact ⟨t.user, hown⟩
      · obtain ⟨r, hr, hrid⟩ := hasMemory_iff.mp hs
        obtain ⟨r', hr', hrid'⟩ := hasMemory_iff.mp ht
        have hsame : r.userId = r'.userId := hg hlink r hr r' hr' hrid hrid'
        refine ⟨r.userId, hrid ▸ hw.rows r hr, ?_⟩
        rw [hsame]
        exact hrid' ▸ hw.rows r' hr'
  | strengthenPairs pairs amount now kind =>
    refine h.from (List.Subset.refl _) (Write.edges happly) fun x y hxy => ⟨t.user, ?_⟩
    obtain ⟨p, hp, hxy⟩ := List.mem_flatMap.mp hxy
    obtain ⟨h₁, h₂⟩ := hmay.2 p hp
    simp only [List.mem_cons, Prod.mk.injEq, List.not_mem_nil, or_false] at hxy
    rcases hxy with ⟨rfl, rfl⟩ | ⟨rfl, rfl⟩
    · exact ⟨h₁, h₂⟩
    · exact ⟨h₂, h₁⟩
  | queueConflicts userId newId hits now =>
    refine h.from (List.Subset.refl _) (Write.edges happly) fun x y hxy => ⟨userId, ?_⟩
    obtain ⟨hit, hhit, hxy⟩ := hxy
    have hnew := hmay.2.1
    have hold := hmay.2.2 hit hhit
    rcases hxy with hxy | hxy <;> cases hxy
    · exact ⟨hnew, hold⟩
    · exact ⟨hold, hnew⟩
  | _ => exact h.from (List.Subset.refl _) (Write.edges happly) fun _ _ hn => hn.elim

theorem edgesOwned_exec {spec : EmbeddingSpec F} (bm25 : Bm25 F) {t : Caller F} {w : World F} {c : Cmd F}
    (hw : w.Sound spec) (h : w.EdgesOwned) (hmay : t.may spec w c) (hg : LinksApart t w c) :
    (exec bm25 c w).2.EdgesOwned := by
  cases c with
  | ulid owner => exact h.from (List.subset_cons_self _ _) (.of_subset (List.Subset.refl _) fun _ _ => False) fun _ _ => False.elim
  | write wr =>
    simp only [exec]
    split
    · exact h
    · split
      · exact edgesOwned_write hw h hmay hg ‹_›
      · exact h
  | resolveConflicts llm pairs =>
    simp only [exec]
    split
    · exact h
    · refine h.from (List.Subset.refl _) (.of_subset (fun e he => ?_) fun _ _ => False) fun _ _ => False.elim
      exact (resolving_effects llm w.oracle.llm pairs ⟨w.db, 0, 0⟩).2.1 ▸ he
  | _ => exact h

/-- As long as no Link names memories of two users, no interleaving of any requests of any
users leaves an edge between two of them. -/
theorem separated_of_linksApart [Elementary F] {bm25 : Bm25 F} {w : World F} (h : Reachable bm25 anyCaller LinksApart w) :
    w.db.TenantSeparated := by
  have howned : w.EdgesOwned := h.keeps any_serves (fun w₀ h₀ => by simp [World.EdgesOwned, h₀.db, Db.empty])
    fun t w c hs hJ hall hg => edgesOwned_exec bm25 hs hJ hall hg
  exact howned.separated (h.sound any_serves)

/-! ### A small daemon -/

def World.quiet : World ℚ := ⟨Db.empty, [], Oracle.quiet⟩

theorem quiet_start : World.quiet.Start := by
  refine ⟨rfl, rfl, fun m n h => ?_⟩
  have hlen := congrArg List.length (String.ofList_injective h)
  simpa using hlen

def AppState.flat : AppState ℚ where
  embeddings := ⟨"flat", "flat-1", fun _ => .ok [1]⟩
  llm := false
  lifecycle := .default
  sha256 _ := []

def Bm25.none : Bm25 ℚ := fun _ _ _ => Option.none

def batch (user : String) (texts : List String) : Caller ℚ where
  app := .flat
  user := user
  request := .memory (.storeBatch ⟨user, texts.map fun c => ⟨c, "semantic", "fact", "{}"⟩, 1 / 2⟩)

def link (user a b : String) : Caller ℚ where
  app := .flat
  user := user
  request := .memory (.link ⟨user, a, b, 1, false, "explicit"⟩)

instance (db : Db F) : Decidable db.TenantSeparated :=
  inferInstanceAs (Decidable (∀ e ∈ db.associations, ∀ r ∈ db.memories, ∀ r' ∈ db.memories,
    r.id = e.sourceMemoryId → r'.id = e.targetMemoryId → r.userId = r'.userId))

/-- A batch of two is linked both ways, within its user. -/
theorem separated_after_batch : ((batch "alice" ["tea", "milk"]).serve Bm25.none World.quiet).db.TenantSeparated := by
  refine separated_of_linksApart (quiet_start.reachable.serve trivial fun w c => ?_)
  have hno : ∀ a b, ¬ (batch "alice" ["tea", "milk"]).links a b := by
    rintro a b ⟨args, hreq, -⟩
    cases hreq
  cases c with
  | write wr =>
    cases wr with
    | upsertEdge a b => exact fun hlink => absurd hlink (hno a b)
    | _ => trivial
  | _ => trivial

/-- Alice links her memory to one of Bob's by its id. -/
theorem link_joins_tenants : ¬ ∀ w : World ℚ, Reachable Bm25.none anyCaller anyStep w → w.db.TenantSeparated := by
  intro h
  have hr : Reachable Bm25.none anyCaller anyStep ((link "alice" "mem_" "mem_a").serve Bm25.none
      ((batch "bob" ["milk"]).serve Bm25.none ((batch "alice" ["tea"]).serve Bm25.none World.quiet))) :=
    ((quiet_start.reachable.serve trivial fun _ _ => trivial).serve trivial fun _ _ => trivial).serve trivial fun _ _ => trivial
  have hjoined : ¬ ((link "alice" "mem_" "mem_a").serve Bm25.none
      ((batch "bob" ["milk"]).serve Bm25.none ((batch "alice" ["tea"]).serve Bm25.none World.quiet))).db.TenantSeparated := by
    decide +kernel
  exact hjoined (h _ hr)

end CognitiveMemory
