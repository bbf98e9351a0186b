import CognitiveMemory.Daemon.Reinforcement
import CognitiveMemory.Daemon.Writes

/-! Promotion to core. A search enters the set of sessions of a memory under a ULID of its own,
so the gate counts searches, whatever connection they came by. -/

namespace CognitiveMemory
open Prog
variable {F : Type}

def retrieved : Event (Cmd F) Cmd.Res → List String
  | ⟨_, .write (.applyDirectBoost _ boosts _ _), .ok _⟩ => boosts.map Prod.fst
  | _ => []

def promoted (w : World F) : Cmd F → List (MemoryRow F)
  | .write (.promoteToCore user ids) =>
    if w.oracle.sqlFault 0 then [] else w.db.memories.filter fun r => ownedAmong user ids r && r.category != "core"
  | _ => []

def OverConnections (conn : ℕ → ℕ) (log : List (Event (Cmd F) Cmd.Res)) (id : String) : Prop :=
  ∃ e ∈ log, ∃ e' ∈ log, id ∈ retrieved e ∧ id ∈ retrieved e' ∧ conn e.task ≠ conn e'.task

instance (conn : ℕ → ℕ) (log : List (Event (Cmd F) Cmd.Res)) (id : String) : Decidable (OverConnections conn log id) := by
  unfold OverConnections
  infer_instance

/-- No promotion of a memory retrieved over one connection only. -/
def CrossSession (conn : ℕ → ℕ) (p : Requests F) (_ : ℕ) (_ : Caller F) (c : Cmd F) : Prop :=
  ∀ r ∈ promoted p.state c, OverConnections conn p.log r.id

instance (conn : ℕ → ℕ) (p : Requests F) (i : ℕ) (t : Caller F) (c : Cmd F) : Decidable (CrossSession conn p i t c) := by
  unfold CrossSession
  infer_instance

def rowsAtHand : Seen F → List (MemoryRow F)
  | ⟨.ulid _, _⟩ :: ⟨.query (.getManyForUser ..), .ok rows⟩ :: _ => rows
  | _ => []

variable [Field F] [LinearOrder F]

def Crossed (conn : ℕ → ℕ) (cfg : LifecycleConfig F) (log : List (Event (Cmd F) Cmd.Res)) (i : ℕ)
    (boosts : List (String × F)) :
    Prop :=
  ∀ r ∈ rowsAtHand (Pool.seen log i), ∀ b ∈ boosts, b.1 = r.id → promotes cfg b.2 r = true →
    ∃ e ∈ log, r.id ∈ retrieved e ∧ conn e.task ≠ conn i

instance (conn : ℕ → ℕ) (cfg : LifecycleConfig F) (log : List (Event (Cmd F) Cmd.Res)) (i : ℕ) (boosts : List (String × F)) :
    Decidable (Crossed conn cfg log i boosts) := by
  unfold Crossed
  infer_instance

def BoostsCrossed (conn : ℕ → ℕ) (p : Requests F) (i : ℕ) (t : Caller F) : Cmd F → Prop
  | .write (.applyDirectBoost _ boosts _ _) => Crossed conn t.app.lifecycle p.log i boosts
  | _ => True

instance (conn : ℕ → ℕ) (p : Requests F) (i : ℕ) (t : Caller F) (c : Cmd F) : Decidable (BoostsCrossed conn p i t c) := by
  unfold BoostsCrossed
  induction c using Cmd.casesOn with
  | write wr => induction wr using Write.casesOn <;> infer_instance
  | _ => infer_instance

/-! ## Where promotions come from -/

def Caller.promotesBoosted (t : Caller F) (h : Seen F) : Cmd F → Prop
  | .write (.promoteToCore _ ids) => ∃ user boosts now session n owner raw keys rows rest,
      h = ⟨.write (.applyDirectBoost user boosts now session), .ok n⟩ :: ⟨.ulid owner, raw⟩ ::
        ⟨.query (.getManyForUser user keys), .ok rows⟩ :: rest ∧
      ∀ id ∈ ids, ∃ r ∈ rows, ∃ b ∈ boosts, r.id = id ∧ b.1 = id ∧ promotes t.app.lifecycle b.2 r = true
  | _ => True

def Cmd.promotesNothing (c : Cmd F) : Prop := ∀ user ids, c ≠ .write (.promoteToCore user ids)

omit [Field F] [LinearOrder F] in
theorem Cmd.quiet.promotesNothing {c : Cmd F} (h : c.quiet) : c.promotesNothing := by
  rintro user ids rfl
  exact h

omit [Field F] in
theorem Cmd.promotesNothing.allowed {t : Caller F} {h : Seen F} {c : Cmd F} (hc : c.promotesNothing) :
    t.promotesBoosted h c := by
  cases c with
  | write w =>
    cases w with
    | promoteToCore user ids => exact absurd rfl (hc user ids)
    | _ => trivial
  | _ => trivial

omit [Field F] in
theorem issues_other {t : Caller F} {ε α : Type} {p : Prog (Cmd F) Cmd.Res ε α} (hp : p.Only Cmd.promotesNothing)
    (h : Seen F) :
    p.Issues t.promotesBoosted (fun _ _ => True) h :=
  (hp.issues (fun _ _ hc => hc.allowed) h).imp fun _ _ _ => trivial

section
variable {t : Caller F}

theorem issues_strengthening {user : String} {results : List (String × ResultSource)} {now : Int} {h : Seen F} :
    (applyPostRetrievalStrengthening t.app user results now).Issues t.promotesBoosted (fun _ _ => True) h := by
  let P : List (MemoryRow F) → Seen F → Prop := fun rows h' =>
    rows = [] ∨ ∃ keys rest, h' = ⟨.query (.getManyForUser user keys), .ok rows⟩ :: rest
  have hread : (getManyForUser user (results.map Prod.fst)).Issues t.promotesBoosted P h := by
    unfold getManyForUser
    split
    · exact .inl rfl
    · refine ⟨trivial, fun answer => ?_⟩
      cases answer with
      | error e => trivial
      | ok rows => exact .inr ⟨_, h, rfl⟩
  refine .seq (.mapError hread) fun rows h₁ hrows => ?_
  refine .seq (P := fun _ h' => ∃ raw, h' = ⟨.ulid user, raw⟩ :: h₁) ⟨trivial, fun u => ⟨u, rfl⟩⟩ fun u h₂ hdrawn => ?_
  obtain ⟨raw, rfl⟩ := hdrawn
  -- the boosts, one for each live row
  let live := rows.filter fun r => !r.isStub
  let stability : MemoryRow F → F := fun r => boostedStability t.app.lifecycle (sourceOf results r.id) now r
  let boosts := live.map fun r => (r.id, stability r)
  let promotions := (live.filter fun r => promotes t.app.lifecycle (stability r) r).map MemoryRow.id
  have hgate : ∀ id ∈ promotions, ∃ r ∈ rows, ∃ b ∈ boosts, r.id = id ∧ b.1 = id ∧ promotes t.app.lifecycle b.2 r = true := by
    intro id hid
    obtain ⟨r, hr, rfl⟩ := List.mem_map.mp hid
    obtain ⟨hlive, hpasses⟩ := List.mem_filter.mp hr
    exact ⟨r, (List.mem_filter.mp hlive).1, (r.id, stability r), List.mem_map.mpr ⟨r, hlive, rfl⟩, rfl, rfl, hpasses⟩
  have hboost : (sqlx (applyDirectBoost user boosts now ("s_" ++ u))).Issues t.promotesBoosted (fun _ h' => promotions = [] ∨
      ∃ n, h' = ⟨.write (.applyDirectBoost user boosts now ("s_" ++ u)), .ok n⟩ :: ⟨.ulid user, raw⟩ :: h₁)
      (⟨.ulid user, raw⟩ :: h₁) := by
    unfold applyDirectBoost unlessEmpty
    split
    · rename_i hnone
      have hlive : live = [] := by simpa [boosts] using hnone
      exact .inl (by simp [promotions, hlive])
    · refine .mapError ⟨trivial, fun answer => ?_⟩
      cases answer with
      | error e => trivial
      | ok n => exact .inr ⟨n, rfl⟩
  refine .seq hboost fun _ h₃ hboosted => .seq (P := fun _ _ => True) ?_ fun _ _ _ => trivial
  unfold promoteToCore unlessEmpty
  split
  · trivial
  · rename_i hsome
    have hne : promotions ≠ [] := fun heq => hsome (List.isEmpty_iff.mpr heq)
    refine .mapError ⟨?_, fun answer => by cases answer <;> trivial⟩
    obtain ⟨n, rfl⟩ := hboosted.resolve_left hne
    rcases hrows with rfl | ⟨keys, rest, rfl⟩
    · exact absurd rfl hne
    · exact ⟨user, boosts, now, _, n, user, raw, keys, rows, rest, rfl, hgate⟩

theorem issues_promotions [Elementary F] (t : Caller F) :
    (handleRequest t.app t.request t.user).Issues t.promotesBoosted (fun _ _ => True) [] := by
  by_cases hsearch : ∃ args, t.request = .memory (.search args)
  · obtain ⟨args, hreq⟩ := hsearch
    rw [hreq]
    exact issues_searching (fun _ _ hc => hc.allowed) (fun _ => Cmd.quiet.promotesNothing) nofun (fun _ => nofun)
      (fun _ _ _ _ => nofun) (fun _ _ _ => issues_strengthening) []
  · refine issues_other ((only_issued t.app t.request t.user).imp ?_) []
    rintro c hc user ids rfl
    exact hsearch (writes_strengthening hc trivial)

end

/-! ## Runs -/

def Crossings (conn : ℕ → ℕ) (labels : List (Caller F)) (log : List (Event (Cmd F) Cmd.Res)) : Prop :=
  ∀ before after i t user boosts now session n, labels[i]? = some t →
    log = before ++ ⟨i, .write (.applyDirectBoost user boosts now session), .ok n⟩ :: after →
      Crossed conn t.app.lifecycle after i boosts

structure Promoting (conn : ℕ → ℕ) (p : Requests F) : Prop where
  obeys : p.Obeys Caller.promotesBoosted
  crossings : Crossings conn (p.tasks.map Prod.fst) p.log

omit [Field F] [LinearOrder F] in
theorem label_of_next {p : Requests F} {i : ℕ} {t : Caller F} {c : Cmd F} (hn : p.next? i = some (t, c)) :
    (p.tasks.map Prod.fst)[i]? = some t := by
  obtain ⟨k, hk⟩ := Pool.next?_some hn
  simp [hk]

theorem Promoting.turn {conn : ℕ → ℕ} {p : Requests F} (h : Promoting conn p) (bm25 : Bm25 F) {i : ℕ} {t : Caller F}
    {c : Cmd F}
    (hn : p.next? i = some (t, c)) (hg : BoostsCrossed conn p i t c) : Promoting conn (p.turn (exec bm25) i) := by
  refine ⟨h.obeys.turn i, ?_⟩
  rw [Pool.labels_turn]
  obtain ⟨k, -, hturn⟩ := Pool.turn_some (x := exec bm25) hn
  rw [hturn]
  intro before after j t' user boosts now session n hlabel hsplit
  rcases List.cons_eq_append_iff.mp hsplit with ⟨rfl, hhere⟩ | ⟨before', rfl, hearlier⟩
  · -- the boost of this turn
    obtain ⟨hevent, rfl⟩ := List.cons.inj hhere
    generalize (exec bm25 c p.state).1 = answer at hevent
    cases hevent
    rw [label_of_next hn] at hlabel
    cases hlabel
    exact hg
  · exact h.crossings before' after j t' user boosts now session n hlabel hearlier

omit [Field F] in
/-- What is promoted has passed the gate of a boost that was crossed. -/
theorem Promoting.crossSession {conn : ℕ → ℕ} {p : Requests F} (h : Promoting conn p) {i : ℕ} {t : Caller F} {c : Cmd F}
    (hn : p.next? i = some (t, c)) : CrossSession conn p i t c := by
  have hallowed : t.promotesBoosted (Pool.seen p.log i) c := h.obeys.allowed hn
  intro r hr
  cases c with
  | write w =>
    cases w with
    | promoteToCore user ids =>
      have hid : r.id ∈ ids := by
        simp only [promoted] at hr
        split at hr
        · cases hr
        · have hpassed := (List.mem_filter.mp hr).2
          simp only [ownedAmong, Bool.and_eq_true, List.contains_iff_mem] at hpassed
          exact hpassed.1.2
      obtain ⟨user', boosts, now, session, n, owner, raw, keys, rows, rest, hseen, hgate⟩ := hallowed
      obtain ⟨before, after, hlog, -, hafter⟩ := Pool.seen_split (hseen.trans (List.nil_append _).symm)
      obtain ⟨row, hrow, b, hb, hrid, hbid, hpasses⟩ := hgate r.id hid
      have hcrossed := h.crossings before after i t user' boosts now session n (label_of_next hn) hlog
      have hhand : row ∈ rowsAtHand (Pool.seen after i) := by
        rw [hafter]
        exact hrow
      obtain ⟨e, he, hretrieved, hconn⟩ := hcrossed row hhand b hb (hbid.trans hrid.symm) hpasses
      refine ⟨e, ?_, ⟨i, .write (.applyDirectBoost user' boosts now session), .ok n⟩, ?_, hrid ▸ hretrieved, ?_, hconn⟩
      · rw [hlog]
        exact List.mem_append_right _ (List.mem_cons_of_mem _ he)
      · rw [hlog]
        exact List.mem_append_right _ List.mem_cons_self
      · exact List.mem_map.mpr ⟨b, hb, hbid⟩
    | _ => cases hr
  | _ => cases hr

/-- In a run where another connection has retrieved a memory before any boost of it passes the
gate, no promotion rests on one connection. -/
theorem crossSession_of_boostsCrossed [Elementary F] {bm25 : Bm25 F} {w : World F} (ts : List (Caller F)) (conn : ℕ → ℕ)
    {schedule : List ℕ} (h : (accepted w ts).Meets (exec bm25) (BoostsCrossed conn) schedule) :
    (accepted w ts).Meets (exec bm25) (CrossSession conn) schedule := by
  have hstart : Promoting conn (accepted w ts) := by
    refine ⟨accepted_obeys fun t _ => issues_promotions t, ?_⟩
    intro before after i t user boosts now session n _ hsplit
    exact absurd hsplit.symm (by simp [accepted, Pool.start])
  exact Pool.meets_imp (fun p i t c hp hn hg => hp.turn bm25 hn hg) (fun p i t c hp hn _ => hp.crossSession hn) hstart h

/-! ### Ten searches -/

def tenSearches : List (Caller ℚ) :=
  { batch "alice" ["tea"] with app := teaSearch.app } ::
    ⟨teaSearch.app, "alice", .memory (.update { userId := "alice", id := "mem_", stability := some 1 })⟩ ::
      List.replicate 10 teaSearch

def inTurns : List ℕ := List.replicate 6 0 ++ [1] ++ (List.range 10).flatMap (fun i => List.replicate 6 (i + 2)) ++ [11]

theorem crossSession_two_connections :
    (accepted World.quiet tenSearches).Meets (exec Bm25.none) (CrossSession fun i => i % 2) inTurns :=
  crossSession_of_boostsCrossed tenSearches (fun i => i % 2) (by decide +kernel)

/-- Over one connection the tenth search promotes the memory all the same. -/
theorem promoted_by_one_connection : ¬ ∀ (w : World ℚ) (ts : List (Caller ℚ)) (conn : ℕ → ℕ) (schedule : List ℕ), w.Start →
    (∀ t ∈ ts, 2 ≤ t.app.lifecycle.coreSessionThreshold) →
    (accepted w ts).Meets (exec Bm25.none) (CrossSession conn) schedule := by
  intro h
  have hcross := h World.quiet tenSearches (fun _ => 0) inTurns quiet_start (by decide +kernel)
  exact absurd hcross (by decide +kernel)

end CognitiveMemory
