import CognitiveMemory.Daemon.Strengthening

/-! The graph under bidirectional Links and Unlinks, one after the other. Unlink removes both
edges in one statement; Link writes them in two. -/

namespace CognitiveMemory
open Prog
variable {F : Type}

def Db.weight? (db : Db F) (a b : String) : Option F := (db.edge? a b).map AssociationRow.weight

/-- There is an edge exactly where there is one back, of the same weight. -/
def Db.Symmetric (db : Db F) : Prop := ∀ a b, db.weight? a b = db.weight? b a

def Db.linkable (db : Db F) (a b : String) : Bool := (db.weight? a b).isSome || db.hasMemory a && db.hasMemory b

/-! ## Statements -/

theorem weight?_upsertEdge [Field F] [LinearOrder F] {db db' : Db F} {s d : String} {existing : Option F} {bump : F}
    {now : Int} {kind : String} (h : db.upsertEdge s d existing bump now kind = .ok db') (a b : String) :
    db'.weight? a b = if (s, d) = (a, b) then some (newWeight existing bump) else db.weight? a b := by
  unfold Db.weight?
  rw [edge?_upsert h (fun _ => ⟨rfl, rfl⟩) a b]
  by_cases hab : (s, d) = (a, b)
  · rw [if_pos hab, if_pos hab]
    cases db.edge? a b <;> rfl
  · rw [if_neg hab, if_neg hab]

theorem upsertEdge_ok_iff [Field F] [LinearOrder F] {db : Db F} {s d : String} (existing : Option F) (bump : F)
    (now : Int) (kind : String) :
    (∃ db', db.upsertEdge s d existing bump now kind = .ok db') ↔ db.linkable s d := by
  unfold Db.upsertEdge Db.upsertAssociation Db.linkable Db.weight?
  rw [Option.isSome_map]
  by_cases he : (db.edge? s d).isSome
  · simp [he]
  · by_cases hm : (db.hasMemory s && db.hasMemory d)
    · simp [he, hm]
    · simp [he, hm]

theorem find?_deleteEdges (es : List (AssociationRow F)) (p : AssociationRow F → Bool) (a b : String) {c : Bool}
    (hp : ∀ e : AssociationRow F, e.joins a b → p e = c) :
    (es.filter fun e => !p e).find? (AssociationRow.joins a b) = if c then none else es.find? (AssociationRow.joins a b) := by
  induction es with
  | nil => simp
  | cons e es ih =>
    rw [List.filter_cons, List.find?_cons]
    cases hj : e.joins a b with
    | true =>
      rw [hp e hj]
      cases c with
      | true => simpa using ih
      | false => simp [hj]
    | false =>
      cases hpe : p e with
      | true => simpa using ih
      | false => simpa [hj] using ih

theorem weight?_deleteEither (db : Db F) (s d a b : String) :
    (db.deleteEdges (AssociationRow.joinsEither s d)).weight? a b =
      if (s, d) = (a, b) ∨ (s, d) = (b, a) then none else db.weight? a b := by
  have hjoins : ∀ e : AssociationRow F, e.joins a b →
      e.joinsEither s d = decide ((s, d) = (a, b) ∨ (s, d) = (b, a)) := by
    intro e he
    simp only [AssociationRow.joins, Bool.and_eq_true, beq_iff_eq] at he
    obtain ⟨rfl, rfl⟩ := he
    simp only [AssociationRow.joinsEither, AssociationRow.joins, Prod.mk.injEq]
    grind
  unfold Db.weight? Db.edge? Db.deleteEdges
  have hfind := find?_deleteEdges db.associations (AssociationRow.joinsEither s d) a b hjoins
  unfold AssociationRow.joins at hfind
  rw [hfind]
  by_cases h : (s, d) = (a, b) ∨ (s, d) = (b, a)
  · rw [if_pos (decide_eq_true h), if_pos h]
    rfl
  · rw [if_neg (by simpa using h), if_neg h]

theorem Db.Symmetric.deleteEither {db : Db F} (h : db.Symmetric) (s d : String) :
    (db.deleteEdges (AssociationRow.joinsEither s d)).Symmetric := by
  intro a b
  rw [weight?_deleteEither, weight?_deleteEither, h a b]
  by_cases hab : (s, d) = (a, b) ∨ (s, d) = (b, a)
  · rw [if_pos hab, if_pos hab.symm]
  · rw [if_neg hab, if_neg fun hba => hab hba.symm]

/-! ## One create_or_strengthen -/

variable [Field F] [LinearOrder F]

section
variable (bm25 : Bm25 F) {w : World F} {a b : String} (bump : F) (now : Int) (kind : String)

theorem run_readWeight (h₀ : w.oracle.sqlFault 0 = false) :
    (query (.edgeWeight a b)).run (exec bm25) w = (.ok (w.db.weight? a b), w.answer w.db) := run_query h₀ rfl

theorem createOrStrengthen_fails (h : w.oracle.sqlFault 0 = true ∨ w.oracle.sqlFault 1 = true ∨ w.db.linkable a b = false) :
    ∃ e w', (createOrStrengthen a b bump now kind).run (exec bm25) w = (.error e, w') ∧ w'.db = w.db := by
  cases h₀ : w.oracle.sqlFault 0 with
  | true => exact ⟨_, _, run_bind_error _ (run_query_fault h₀), rfl⟩
  | false =>
    rw [h₀] at h
    cases h₁ : w.oracle.sqlFault 1 with
    | true =>
      have hwrite : (write (.upsertEdge a b (w.db.weight? a b) bump now kind)).run (exec bm25) (w.answer w.db) =
        (.error .io, (w.answer w.db).answer w.db) := run_write_fault h₁
      exact ⟨_, _, (run_bind_ok _ (run_readWeight bm25 h₀)).trans hwrite, rfl⟩
    | false =>
      have hl : w.db.linkable a b = false := by simpa [h₁] using h
      cases hup : w.db.upsertEdge a b (w.db.weight? a b) bump now kind with
      | error e =>
        have hrejected : (Write.upsertEdge a b (w.db.weight? a b) bump now kind).apply (w.answer w.db).db = .error e := by
          simp only [Write.apply, World.answer, hup]
          rfl
        exact ⟨e, _, (run_bind_ok _ (run_readWeight bm25 h₀)).trans (run_write_rejected h₁ hrejected), rfl⟩
      | ok db =>
        have hlinkable := (upsertEdge_ok_iff _ bump now kind).mp ⟨db, hup⟩
        rw [hl] at hlinkable
        cases hlinkable

structure Landed (a b : String) (bump : F) (w w' : World F) : Prop where
  weights : ∀ x y, w'.db.weight? x y = if (a, b) = (x, y) then some (newWeight (w.db.weight? a b) bump) else w.db.weight? x y
  memories : w'.db.memories = w.db.memories
  faults : ∀ n, w'.oracle.sqlFault n = w.oracle.sqlFault (n + 2)

theorem createOrStrengthen_lands (h₀ : w.oracle.sqlFault 0 = false) (h₁ : w.oracle.sqlFault 1 = false)
    (hl : w.db.linkable a b = true) :
    ∃ v w', (createOrStrengthen a b bump now kind).run (exec bm25) w = (.ok v, w') ∧ Landed a b bump w w' := by
  obtain ⟨db, hup⟩ := (upsertEdge_ok_iff (w.db.weight? a b) bump now kind).mpr hl
  have hwrite : (write (.upsertEdge a b (w.db.weight? a b) bump now kind)).run (exec bm25) (w.answer w.db) =
      (.ok (newWeight (w.db.weight? a b) bump), (w.answer w.db).answer db) := by
    refine run_write h₁ ?_
    simp only [Write.apply, World.answer, hup]
    rfl
  exact ⟨_, _, (run_bind_ok _ (run_readWeight bm25 h₀)).trans hwrite, weight?_upsertEdge hup,
      (upsertAssociation_memories hup).1, fun n => rfl⟩

/-- Where there was an edge back there still is, so the way back can be linked too. -/
theorem Landed.linkable {bump : F} {w' : World F} (h : Landed a b bump w w') (hsym : w.db.Symmetric)
    (hl : w.db.linkable a b = true) :
    w'.db.linkable b a = true := by
  unfold Db.linkable Db.hasMemory at hl ⊢
  rw [h.memories, h.weights b a]
  split
  · rfl
  · rw [hsym b a]
    rw [Bool.or_eq_true, Bool.and_eq_true] at hl ⊢
    exact hl.imp_right And.symm

end

/-! ## Requests -/

section

/-- Links and Unlinks of both directions. -/
def Caller.bothWays (t : Caller F) : Prop :=
  match t.request with
  | .memory (.link args) => args.bidirectional = true
  | .memory (.unlink args) => args.bidirectional = true
  | _ => False

def Caller.cut (t : Caller F) (w : World F) : Prop :=
  match t.request with
  | .memory (.link args) => args.userId = t.user ∧ args.sourceId ≠ args.targetId ∧
      w.db.linkable args.sourceId args.targetId = true ∧
      some (newWeight (w.db.weight? args.sourceId args.targetId) args.strength) ≠ w.db.weight? args.sourceId args.targetId ∧
      w.oracle.sqlFault 0 = false ∧ w.oracle.sqlFault 1 = false ∧
      (w.oracle.sqlFault 2 = true ∨ w.oracle.sqlFault 3 = true)
  | _ => False

instance (t : Caller F) (w : World F) : Decidable (t.cut w) := by
  unfold Caller.cut
  induction t.request using Request.casesOn with
  | memory r => induction r using MemoryRequest.casesOn <;> infer_instance
  | _ => infer_instance

theorem symmetric_link (bm25 : Bm25 F) {w : World F} {a b : String} (bump : F) (now : Int) (kind : String)
    (h : w.db.Symmetric) :
    ((linkBidirectional a b bump now kind).run (exec bm25) w).2.db.Symmetric ↔
      ¬ (a ≠ b ∧ w.db.linkable a b = true ∧ some (newWeight (w.db.weight? a b) bump) ≠ w.db.weight? a b ∧
        w.oracle.sqlFault 0 = false ∧ w.oracle.sqlFault 1 = false ∧
        (w.oracle.sqlFault 2 = true ∨ w.oracle.sqlFault 3 = true)) := by
  unfold linkBidirectional
  rw [bind_eq]
  by_cases hfirst : w.oracle.sqlFault 0 = true ∨ w.oracle.sqlFault 1 = true ∨ w.db.linkable a b = false
  · -- nothing was written
    obtain ⟨e, w', hrun, hdb⟩ := createOrStrengthen_fails bm25 bump now kind hfirst
    rw [run_bind_error _ hrun, hdb]
    refine iff_of_true h ?_
    rintro ⟨-, hl, -, h₀, h₁, -⟩
    simp [hl, h₀, h₁] at hfirst
  · obtain ⟨h₀, h₁, hl⟩ : w.oracle.sqlFault 0 = false ∧ w.oracle.sqlFault 1 = false ∧ w.db.linkable a b = true := by
      simpa using hfirst
    obtain ⟨v, w₁, hrun, hlanded⟩ := createOrStrengthen_lands bm25 bump now kind h₀ h₁ hl
    rw [run_bind_ok _ hrun, bind_eq]
    by_cases hsecond : w.oracle.sqlFault 2 = true ∨ w.oracle.sqlFault 3 = true
    · -- only the way there was written
      have hfails : w₁.oracle.sqlFault 0 = true ∨ w₁.oracle.sqlFault 1 = true ∨ w₁.db.linkable b a = false := by
        rw [hlanded.faults 0, hlanded.faults 1]
        exact hsecond.imp_right .inl
      obtain ⟨e, w', hrun', hdb⟩ := createOrStrengthen_fails bm25 bump now kind hfails
      rw [run_bind_error _ hrun', hdb]
      constructor
      · rintro hsym ⟨hne, -, hchanged, -, -, -⟩
        have hback := hsym a b
        rw [hlanded.weights, hlanded.weights, if_pos rfl, if_neg (by simp [Ne.symm hne]), h b a] at hback
        exact hchanged hback
      · intro hno x y
        by_cases hne : a = b
        · subst hne
          rw [hlanded.weights, hlanded.weights, h x y]
          by_cases hxy : (a, a) = (x, y)
          · cases hxy
            rfl
          · rw [if_neg hxy, if_neg fun hyx => hxy (by cases hyx; rfl)]
        · have hsame : some (newWeight (w.db.weight? a b) bump) = w.db.weight? a b := by
            by_contra hchanged
            exact hno ⟨hne, hl, hchanged, h₀, h₁, hsecond⟩
          have hweights : ∀ x y, w₁.db.weight? x y = w.db.weight? x y := by
            intro x y
            rw [hlanded.weights]
            split
            · rename_i hxy
              cases hxy
              exact hsame
            · rfl
          rw [hweights, hweights, h x y]
    · -- both were written, from the same weight
      obtain ⟨h₂, h₃⟩ : w.oracle.sqlFault 2 = false ∧ w.oracle.sqlFault 3 = false := by simpa using hsecond
      obtain ⟨v', w₂, hrun', hlanded'⟩ := createOrStrengthen_lands bm25 (a := b) (b := a) bump now kind (w := w₁)
        (by rw [hlanded.faults]; exact h₂) (by rw [hlanded.faults]; exact h₃)
        (hlanded.linkable h hl)
      rw [run_bind_ok _ hrun']
      refine iff_of_true (fun x y => ?_) fun hcut => hsecond hcut.2.2.2.2.2
      show w₂.db.weight? x y = w₂.db.weight? y x
      simp only [hlanded'.weights, hlanded.weights, h b a, h y x, Prod.mk.injEq]
      grind

variable [Elementary F]

theorem symmetric_serve_link {bm25 : Bm25 F} {t : Caller F} {args : LinkMemoryArgs F}
    (hreq : t.request = .memory (.link args)) (hboth : args.bidirectional = true) {w : World F} (h : w.db.Symmetric) :
    (t.serve bm25 w).db.Symmetric ↔ ¬ t.cut w := by
  unfold Caller.serve Caller.cut
  rw [hreq]
  show ((handleMemoryLink args t.user).run (exec bm25) w).2.db.Symmetric ↔ _
  unfold handleMemoryLink requireUserMatch
  by_cases huser : args.userId = t.user
  · -- the clock is read, then both edges are written
    let w₁ : World F := { w with oracle := w.oracle.nextClock }
    have hlink : linkStrength args (w.oracle.clock 0) =
        linkBidirectional args.sourceId args.targetId args.strength (w.oracle.clock 0) args.kind := if_pos hboth
    rw [if_pos huser]
    show (((sqlx (linkStrength args (w.oracle.clock 0))).bind fun strength => .pure (ResponseData.linkStrength strength)).run
      (exec bm25) w₁).2.db.Symmetric ↔ _
    rw [run_map_state, sqlx, run_mapError, hlink, symmetric_link bm25 _ _ _ (w := w₁) h]
    exact not_congr ⟨fun hcut => ⟨huser, hcut⟩, fun hcut => hcut.2⟩
  · rw [if_neg huser]
    exact iff_of_true h fun hcut => huser hcut.1

theorem symmetric_serve_unlink {bm25 : Bm25 F} {t : Caller F} {args : UnlinkMemoryArgs}
    (hreq : t.request = .memory (.unlink args)) (hboth : args.bidirectional = true) {w : World F} (h : w.db.Symmetric) :
    (t.serve bm25 w).db.Symmetric := by
  unfold Caller.serve
  rw [hreq]
  show ((handleMemoryUnlink args t.user : HandlerM F _).run (exec bm25) w).2.db.Symmetric
  unfold handleMemoryUnlink affecting requireUserMatch
  rw [if_pos hboth]
  by_cases huser : args.userId = t.user
  · rw [if_pos huser]
    show (((sqlx (write (.deleteEdgeBidirectional args.sourceId args.targetId))).bind fun n =>
        .pure (ResponseData.affected n)).run
      (exec bm25) w).2.db.Symmetric
    rw [run_map_state, sqlx, run_mapError]
    cases hfault : w.oracle.sqlFault 0 with
    | true =>
      rw [run_write_fault hfault]
      exact h
    | false =>
      rw [run_write hfault rfl]
      exact h.deleteEither args.sourceId args.targetId
  · rw [if_neg huser]
    exact h

/-- One of these requests keeps the graph symmetric unless it is a Link that is cut. -/
theorem symmetric_serve {bm25 : Bm25 F} {t : Caller F} (ht : t.bothWays) {w : World F} (h : w.db.Symmetric) :
    (t.serve bm25 w).db.Symmetric ↔ ¬ t.cut w := by
  unfold Caller.bothWays at ht
  split at ht
  · exact symmetric_serve_link ‹_› ht h
  · rename_i args hreq
    refine iff_of_true (symmetric_serve_unlink hreq ht h) fun hcut => ?_
    unfold Caller.cut at hcut
    rw [hreq] at hcut
    exact hcut
  · exact ht.elim

/-! ## Runs -/

def World.serveAll (bm25 : Bm25 F) (w : World F) (ts : List (Caller F)) : World F := ts.foldl (fun w t => t.serve bm25 w) w

/-- None of them is cut. -/
def Uncut (bm25 : Bm25 F) : World F → List (Caller F) → Prop
  | _, [] => True
  | w, t :: ts => ¬ t.cut w ∧ Uncut bm25 (t.serve bm25 w) ts

instance (bm25 : Bm25 F) (w : World F) (ts : List (Caller F)) : Decidable (Uncut bm25 w ts) := by
  induction ts generalizing w with
  | nil => exact isTrue trivial
  | cons t ts ih =>
    have := ih (t.serve bm25 w)
    unfold Uncut
    infer_instance

theorem symmetric_iff_uncut {bm25 : Bm25 F} {w : World F} (h : w.db.Symmetric) {ts : List (Caller F)}
    (hts : ∀ t ∈ ts, t.bothWays) :
    (∀ before after, ts = before ++ after → (w.serveAll bm25 before).db.Symmetric) ↔ Uncut bm25 w ts := by
  induction ts generalizing w with
  | nil =>
    refine iff_of_true (fun before after heq => ?_) trivial
    obtain ⟨rfl, -⟩ := List.append_eq_nil_iff.mp heq.symm
    exact h
  | cons t ts ih =>
    obtain ⟨ht, hts⟩ := List.forall_mem_cons.mp hts
    have hstep : (t.serve bm25 w).db.Symmetric ↔ ¬ t.cut w := symmetric_serve ht h
    constructor
    · intro hall
      have hone : (t.serve bm25 w).db.Symmetric := hall [t] ts rfl
      exact ⟨hstep.mp hone, (ih hone hts).mp fun before after heq => hall (t :: before) after (by rw [heq]; rfl)⟩
    · rintro ⟨huncut, hrest⟩ before after heq
      cases before with
      | nil => exact h
      | cons t' before =>
        obtain ⟨rfl, rfl⟩ := List.cons.inj heq
        exact (ih (hstep.mpr huncut) hts).mpr hrest before after rfl

/-- All weights of a reachable store lie between 0 and 1. Bidirectional Links and Unlinks, one
after the other, keep a symmetric graph symmetric if and only if no Link is cut. -/
theorem edges_iff_uncut [IsStrictOrderedRing F] {bm25 : Bm25 F} {w : World F} (h : Reachable bm25 anyCaller anyStep w) :
    w.db.Weighted ∧ (w.db.Symmetric → ∀ ts : List (Caller F), (∀ t ∈ ts, t.bothWays) →
      ((∀ before after, ts = before ++ after → (w.serveAll bm25 before).db.Symmetric) ↔ Uncut bm25 w ts)) :=
  ⟨h.weighted, fun hsym _ hts => symmetric_iff_uncut hsym hts⟩

end

/-! ### Tea and milk -/

def mix : Caller ℚ := ⟨.flat, "alice", .memory (.link ⟨"alice", "mem_", "mem_a", 2 / 5, true, "explicit"⟩)⟩

def separate : Caller ℚ := ⟨.flat, "alice", .memory (.unlink ⟨"alice", "mem_a", "mem_", true⟩)⟩

theorem teaAndMilk_symmetric : teaAndMilk.db.Symmetric := by
  have hnone : teaAndMilk.db.associations = [] := by decide +kernel
  intro a b
  rw [Db.weight?, Db.weight?, Db.edge?, Db.edge?, hnone]
  rfl

theorem symmetric_after_mixing : (teaAndMilk.serveAll Bm25.none [mix, mix]).db.Symmetric :=
  ((edges_iff_uncut teaAndMilk_reachable).2 teaAndMilk_symmetric [mix, mix, separate]
    (by simp [mix, separate, Caller.bothWays])).mpr
    (by decide +kernel) [mix, mix] [separate] rfl

def teaAndMilkFailing : World ℚ :=
  (batch "alice" ["milk"]).serve Bm25.none ((batch "alice" ["tea"]).serve Bm25.none
    ⟨Db.empty, [], { Oracle.quiet with sqlFault := fun n => n == 8 }⟩)

theorem teaAndMilkFailing_reachable : Reachable Bm25.none anyCaller anyStep teaAndMilkFailing := by
  have hstart : World.Start (⟨Db.empty, [], { Oracle.quiet with sqlFault := fun n => n == 8 }⟩ : World ℚ) :=
    ⟨rfl, rfl, quiet_start.distinct⟩
  exact (hstart.reachable.serve trivial fun _ _ => trivial).serve trivial fun _ _ => trivial

/-- A Link that fails half way leaves an edge without one back. -/
theorem half_a_link : ¬ ∀ (w : World ℚ), Reachable Bm25.none anyCaller anyStep w → w.db.Symmetric →
    ∀ ts : List (Caller ℚ), (∀ t ∈ ts, t.bothWays) → (w.serveAll Bm25.none ts).db.Symmetric := by
  intro h
  have hsym : teaAndMilkFailing.db.Symmetric := by
    have hnone : teaAndMilkFailing.db.associations = [] := by decide +kernel
    intro a b
    rw [Db.weight?, Db.weight?, Db.edge?, Db.edge?, hnone]
    rfl
  have hafter := h teaAndMilkFailing teaAndMilkFailing_reachable hsym [mix] (by simp [mix, Caller.bothWays]) "mem_" "mem_a"
  have hforth : (teaAndMilkFailing.serveAll Bm25.none [mix]).db.weight? "mem_" "mem_a" = some (2 / 5) := by decide +kernel
  have hback : (teaAndMilkFailing.serveAll Bm25.none [mix]).db.weight? "mem_a" "mem_" = none := by decide +kernel
  rw [hforth, hback] at hafter
  cases hafter

end CognitiveMemory
