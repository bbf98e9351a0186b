import CognitiveMemory.Daemon.Atomicity
import CognitiveMemory.Daemon.Instants
import CognitiveMemory.Lib.Serial

/-! Concurrent requests that come to what the same requests come to one after the other: when they do, and
how the embedding cache is kept out of it. -/

namespace CognitiveMemory
open Prog
variable {F : Type}

/-! ## Embedding -/

def Db.cached (db : Db F) (app : AppState F) (text : String) : Option (List F) :=
  (db.embeddingCache.find? fun c => c.provider == app.embeddings.name && c.model == app.embeddings.model &&
    c.textHash == app.sha256 (canonicalise text)).map CacheRow.embedding

def VectorOf (app : AppState F) (db₀ : Db F) (text : String) (v : List F) : Prop :=
  db₀.cached app text = some v ∨ db₀.cached app text = none ∧ app.embeddings.embed (canonicalise text) = .ok v

/-- No two of the texts have the same hash. -/
def Apart (app : AppState F) (texts : List String) : Prop :=
  ∀ text ∈ texts, ∀ text' ∈ texts, app.sha256 (canonicalise text) = app.sha256 (canonicalise text') →
    canonicalise text = canonicalise text'

structure Cached (app : AppState F) (texts : List String) (db₀ db : Db F) : Prop where
  keeps : ∀ text v, db₀.cached app text = some v → db.cached app text = some v
  vectors : ∀ text ∈ texts, ∀ v, db.cached app text = some v → VectorOf app db₀ text v

def embeddedText (app : AppState F) (text : String) (v : List F) : CacheRow F :=
  ⟨app.embeddings.name, app.embeddings.model, app.sha256 (canonicalise text), v⟩

section
variable {app : AppState F} {texts : List String} {db₀ db db' : Db F} {text : String} {v : List F}

theorem Cached.refl (app : AppState F) (texts : List String) (db₀ : Db F) : Cached app texts db₀ db₀ :=
  ⟨fun _ _ h => h, fun _ _ _ h => .inl h⟩

theorem Cached.same (h : Cached app texts db₀ db) (hcache : db'.embeddingCache = db.embeddingCache) :
    Cached app texts db₀ db' := by
  have hsame : ∀ text, db'.cached app text = db.cached app text := fun text => by rw [Db.cached, hcache, Db.cached]
  exact ⟨fun text v hv => (hsame text).trans (h.keeps text v hv), fun text htext v hv =>
    h.vectors text htext v ((hsame text).symm.trans hv)⟩

theorem Cached.none (h : Cached app texts db₀ db) (hnone : db.cached app text = none) : db₀.cached app text = none := by
  cases hbefore : db₀.cached app text with
  | none => rfl
  | some v =>
    rw [h.keeps text v hbefore] at hnone
    cases hnone

theorem VectorOf.unique {v' : List F} (h : VectorOf app db₀ text v) (h' : VectorOf app db₀ text v') : v = v' := by
  rcases h with h | ⟨hnone, h⟩ <;> rcases h' with h' | ⟨hnone', h'⟩
  · exact Option.some.inj (h.symm.trans h')
  · rw [h] at hnone'
    cases hnone'
  · rw [h'] at hnone
    cases hnone
  · exact Except.ok.inj (h.symm.trans h')

theorem cached_insert (db : Db F) (app : AppState F) (text text' : String) (v : List F) :
    (db.cacheInsert (embeddedText app text v)).cached app text' = db.cached app text' ∨
      db.cached app text' = none ∧ app.sha256 (canonicalise text') = app.sha256 (canonicalise text) ∧
        (db.cacheInsert (embeddedText app text v)).cached app text' = some v := by
  unfold Db.cacheInsert
  split
  · exact .inl rfl
  simp only [Db.cached, embeddedText, List.find?_append]
  cases hfound : db.embeddingCache.find? fun c => c.provider == app.embeddings.name && c.model == app.embeddings.model &&
      c.textHash == app.sha256 (canonicalise text') with
  | some row => exact .inl rfl
  | none =>
    by_cases hhash : app.sha256 (canonicalise text') = app.sha256 (canonicalise text)
    · exact .inr ⟨rfl, hhash, by simp [hhash]⟩
    · exact .inl (by simp [Ne.symm hhash])

theorem Cached.insert (h : Cached app texts db₀ db) (hapart : Apart app texts) (htext : text ∈ texts)
    (hv : app.embeddings.embed (canonicalise text) = .ok v) : Cached app texts db₀ (db.cacheInsert (embeddedText app text v)) := by
  refine ⟨fun text' v' hcached => ?_, fun text' htext' v' hcached => ?_⟩
  · have hold := h.keeps text' v' hcached
    rcases cached_insert db app text text' v with hsame | ⟨hnone, -, -⟩
    · rw [hsame, hold]
    · rw [hold] at hnone
      cases hnone
  · rcases cached_insert db app text text' v with hsame | ⟨hnone, hhash, hnew⟩
    · exact h.vectors text' htext' v' (hsame.symm.trans hcached)
    · obtain rfl : v = v' := Option.some.inj (hnew.symm.trans hcached)
      refine .inr ⟨?_, ?_⟩
      · cases hbefore : db₀.cached app text' with
        | none => rfl
        | some v' =>
          rw [h.keeps text' v' hbefore] at hnone
          cases hnone
      · rw [hapart text' htext' text htext hhash]
        exact hv

theorem embed_eq (app : AppState F) (text : String) : embed app text =
    Prog.cmd (.query (.cacheGet app.embeddings.name app.embeddings.model (app.sha256 (canonicalise text)))) fun answer =>
      match answer with
      | .error e => .fail (.embedding (.storage e))
      | .ok (some v) => .pure v
      | .ok none => Prog.cmd (.provider app.embeddings (canonicalise text)) fun answer =>
        match answer with
        | .error message => .fail (.embedding (.provider message))
        | .ok v => Prog.cmd (.write (.cacheInsert (embeddedText app text v))) fun answer =>
          match answer with
          | .error e => .fail (.embedding (.storage e))
          | .ok () => .pure v := by
  unfold embed cachedEmbed
  refine congrArg (Prog.cmd _) (funext fun answer => ?_)
  match answer with
  | .error e => rfl
  | .ok (some v) => rfl
  | .ok none =>
    refine congrArg (Prog.cmd _) (funext fun answer => ?_)
    match answer with
    | .error message => rfl
    | .ok v =>
      refine congrArg (Prog.cmd _) (funext fun answer => ?_)
      cases answer <;> rfl

end

/-! ## Statements and what they share -/

/-- The embedding cache is nothing anyone can tell, and the provider is asked for its sake. -/
def Cmd.access : Cmd F → Access
  | .query (.cacheGet ..) | .write (.cacheInsert _) | .provider .. => .veiled
  | .query _ => .read
  | .write _ | .resolveConflicts .. => .write
  | _ => .drawn

theorem only_veiled (app : AppState F) (text : String) : (embed app text).Only fun c => c.access = .veiled := by
  rw [embed_eq]
  refine ⟨rfl, fun found => ?_⟩
  match found with
  | .error e => trivial
  | .ok (some v) => trivial
  | .ok none =>
    refine ⟨rfl, fun answer => ?_⟩
    match answer with
    | .error message => trivial
    | .ok v =>
      refine ⟨rfl, fun stored => ?_⟩
      match stored with
      | .error e => trivial
      | .ok () => trivial

def Cmd.simple (c : Cmd F) : Prop := c.drawn ∨ c.stated

section
variable [Field F] [LinearOrder F]

/-- Whatever is cached. -/
def Holds (bm25 : Bm25 F) (e : (c : Cmd F) × c.Res) (db db' : Db F) : Prop :=
  ∀ cache, Goes bm25 e (db.withCache cache) (db'.withCache cache)

/-- What was read would be read again. -/
def Still (bm25 : Bm25 F) (e : (c : Cmd F) × c.Res) (w : World F) : Prop :=
  match e with
  | ⟨.query q, answer⟩ => answer = .error .io ∨ q.eval bm25 w.db = answer
  | _ => True

/-- The clock is not read to be earlier. -/
def Onward (e e' : (c : Cmd F) × c.Res) : Prop :=
  match e, e' with
  | ⟨.clock, now⟩, ⟨.clock, now'⟩ => now ≤ now'
  | _, _ => True

section
variable {bm25 : Bm25 F}

theorem goes_query {q : Query F} {answer : Except SqlError q.Res} {db : Db F}
    (h : answer = .error .io ∨ q.eval bm25 db = answer) :
    Goes bm25 ⟨.query q, answer⟩ db db := by
  have hstated : (Cmd.query q).stated := trivial
  rcases h with rfl | rfl
  · exact goes_stated bm25 hstated ⟨db, [], { Oracle.quiet with sqlFault := fun _ => true }⟩
  · exact goes_stated bm25 hstated ⟨db, [], Oracle.quiet⟩

end

/-! ## Programs alone -/

def clockedAll (es : History (Cmd F) Cmd.Res) (clock : ℕ → Int) : ℕ → Int := es.foldr clocked clock

theorem run_of_goes {bm25 : Bm25 F} {ε α : Type} {p₀ p : Prog (Cmd F) Cmd.Res ε α} {h : History (Cmd F) Cmd.Res}
    {db db' : Db F} (hran : Ran p₀ h p) (hchain : Chain (Goes bm25) h.reverse db db') (o : Oracle) :
    ∃ o' : Oracle, o'.clock = clockedAll h.reverse o.clock ∧ ∀ minted, ∃ minted',
      p₀.run (exec bm25) ⟨db, minted, o'⟩ = p.run (exec bm25) ⟨db', minted', o⟩ := by
  induction h generalizing p db' o with
  | nil =>
    cases hran
    cases hchain
    exact ⟨o, rfl, fun minted => ⟨minted, rfl⟩⟩
  | cons e h ih =>
    obtain ⟨k, hran, rfl⟩ := hran
    rw [List.reverse_cons] at hchain
    obtain ⟨d, hbefore, d', hgoes, rfl⟩ := chain_append.mp hchain
    obtain ⟨o₁, hclock₁, hexec⟩ := hgoes o
    obtain ⟨o', hclock, hrun⟩ := ih hran hbefore o₁
    refine ⟨o', ?_, fun minted => ?_⟩
    · rw [hclock, hclock₁, List.reverse_cons, clockedAll, clockedAll, List.foldr_append]
      rfl
    · obtain ⟨minted₁, hrun⟩ := hrun minted
      obtain ⟨minted', hexec⟩ := hexec minted₁
      refine ⟨minted', ?_⟩
      rw [hrun, run_command, hexec]

/-! ## Embedding among others -/

/-- The answer was given where the cache had grown from that of `db₀`. -/
def Attested (bm25 : Bm25 F) (app : AppState F) (texts : List String) (db₀ : Db F) (e : (c : Cmd F) × c.Res) : Prop :=
  ∃ w : World F, Cached app texts db₀ w.db ∧ e.2 = (exec bm25 e.1 w).1

section
variable {bm25 : Bm25 F} {app : AppState F} {texts : List String} {db₀ db : Db F} {text : String} {v : List F}
  {h : History (Cmd F) Cmd.Res}

theorem eval_of_answer {q : Query F} {a : q.Res} {w : World F} (h : .ok a = (exec bm25 (.query q) w).1) :
    q.eval bm25 w.db = .ok a := by
  simp only [exec] at h
  split at h
  · cases h
  · exact h.symm

theorem goes_io (wr : Write F) (db : Db F) : Goes bm25 ⟨.write wr, .error .io⟩ db db := by
  have hstated : (Cmd.write wr).stated := trivial
  exact goes_stated bm25 hstated ⟨db, [], { Oracle.quiet with sqlFault := fun _ => true }⟩

theorem attested_cached {answer : Option (List F)} (hgen : Attested bm25 app texts db₀
    ⟨.query (.cacheGet app.embeddings.name app.embeddings.model (app.sha256 (canonicalise text))), .ok answer⟩) :
    ∃ w : World F, Cached app texts db₀ w.db ∧ w.db.cached app text = answer := by
  obtain ⟨w, hw, hanswer⟩ := hgen
  let q : Query F := .cacheGet app.embeddings.name app.embeddings.model (app.sha256 (canonicalise text))
  have heval : q.eval bm25 w.db = .ok answer := eval_of_answer hanswer
  exact ⟨w, hw, Except.ok.inj heval⟩

theorem embed_of_provider {answer : List F}
    (hgen : Attested bm25 app texts db₀ ⟨.provider app.embeddings (canonicalise text), .ok answer⟩) :
    app.embeddings.embed (canonicalise text) = .ok answer := by
  obtain ⟨w, -, hanswer⟩ := hgen
  simp only [exec] at hanswer
  split at hanswer
  · cases hanswer
  · exact hanswer.symm

theorem vector_of_ran (hran : Ran (embed app text) h (.pure v)) (hgen : ∀ e ∈ h, Attested bm25 app texts db₀ e)
    (htext : text ∈ texts) : VectorOf app db₀ text v := by
  rw [embed_eq] at hran
  obtain ⟨-, hp⟩ | ⟨found, h₁, rfl, hran₁⟩ := ran_cmd hran
  · cases hp
  match found with
  | .error e => cases (ran_fail hran₁).2
  | .ok (some v') =>
    cases (ran_pure hran₁).2
    obtain ⟨w, hw, hcached⟩ := attested_cached (hgen _ (List.mem_append_right _ (List.mem_singleton_self _)))
    exact hw.vectors text htext v hcached
  | .ok none =>
    obtain ⟨w, hw, hmissed⟩ := attested_cached (hgen _ (List.mem_append_right _ (List.mem_singleton_self _)))
    have hnone := hw.none hmissed
    obtain ⟨-, hp⟩ | ⟨answer, h₂, rfl, hran₂⟩ := ran_cmd hran₁
    · cases hp
    match answer with
    | .error message => cases (ran_fail hran₂).2
    | .ok v' =>
      have hv' := embed_of_provider (hgen _ (List.mem_append_left _ (List.mem_append_right _ (List.mem_singleton_self _))))
      obtain ⟨-, hp⟩ | ⟨stored, h₃, rfl, hran₃⟩ := ran_cmd hran₂
      · cases hp
      match stored with
      | .error e => cases (ran_fail hran₃).2
      | .ok () =>
        cases (ran_pure hran₃).2
        exact .inr ⟨hnone, hv'⟩

theorem goes_missed (hgen : Attested bm25 app texts db₀
    ⟨.query (.cacheGet app.embeddings.name app.embeddings.model (app.sha256 (canonicalise text))), .ok none⟩) :
    Goes bm25 ⟨.query (.cacheGet app.embeddings.name app.embeddings.model (app.sha256 (canonicalise text))), .ok none⟩ db₀ db₀ := by
  obtain ⟨w, hw, hmissed⟩ := attested_cached hgen
  exact goes_query (.inr (congrArg Except.ok (hw.none hmissed)))

theorem goes_asked {canonical : String} {answer : Except String (List F)}
    (hgen : Attested bm25 app texts db₀ ⟨.provider app.embeddings canonical, answer⟩) :
    Goes bm25 ⟨.provider app.embeddings canonical, answer⟩ db₀ db₀ := by
  obtain ⟨w, -, hanswer⟩ := hgen
  have hdrawn : (Cmd.provider app.embeddings canonical).drawn := trivial
  have hgoes := goes_drawn bm25 hdrawn w db₀
  rwa [← hanswer] at hgoes

/-- An embedding that fails may fail so at the very beginning. -/
theorem chain_of_failed {e : HandlerError} (hran : Ran (embed app text) h (.fail e))
    (hgen : ∀ e ∈ h, Attested bm25 app texts db₀ e) :
    Chain (Goes bm25) h.reverse db₀ db₀ := by
  rw [embed_eq] at hran
  obtain ⟨-, hp⟩ | ⟨found, h₁, rfl, hran₁⟩ := ran_cmd hran
  · cases hp
  have hfound := hgen _ (List.mem_append_right _ (List.mem_singleton_self _))
  rcases found with e | (_ | v')
  · obtain ⟨rfl, -⟩ := ran_fail hran₁
    obtain ⟨w, -, hanswer⟩ := hfound
    refine chain_one (goes_query (.inl ?_))
    simp only [exec] at hanswer
    split at hanswer <;> cases hanswer
    rfl
  · obtain ⟨-, hp⟩ | ⟨answer, h₂, rfl, hran₂⟩ := ran_cmd hran₁
    · cases hp
    have hanswer := hgen _ (List.mem_append_left _ (List.mem_append_right _ (List.mem_singleton_self _)))
    cases answer with
    | error message =>
      obtain ⟨rfl, -⟩ := ran_fail hran₂
      exact ⟨db₀, goes_missed hfound, chain_one (goes_asked hanswer)⟩
    | ok v' =>
      obtain ⟨-, hp⟩ | ⟨stored, h₃, rfl, hran₃⟩ := ran_cmd hran₂
      · cases hp
      cases stored with
      | ok => cases (ran_pure hran₃).2
      | error e =>
        obtain ⟨rfl, -⟩ := ran_fail hran₃
        obtain ⟨w, -, hstored⟩ := hgen _ (List.mem_append_left _ (List.mem_append_left _ (List.mem_append_right _
          (List.mem_singleton_self _))))
        have hio : e = .io := by
          simp only [exec, Write.apply] at hstored
          split at hstored <;> cases hstored
          rfl
        rw [hio]
        exact ⟨db₀, goes_missed hfound, db₀, goes_asked hanswer, chain_one (goes_io _ db₀)⟩
  · cases (ran_pure hran₁).2

/-- On a store with the cache grown so far, the text is embedded as it was. -/
theorem embed_again (bm25 : Bm25 F) (hapart : Apart app texts) (htext : text ∈ texts) (hcached : Cached app texts db₀ db)
    (hv : VectorOf app db₀ text v) : ∃ h cache, Ran (embed app text) h (.pure v) ∧
      Chain (Goes bm25) h.reverse db (db.withCache cache) ∧ Cached app texts db₀ (db.withCache cache) := by
  rw [embed_eq]
  let q : Query F := .cacheGet app.embeddings.name app.embeddings.model (app.sha256 (canonicalise text))
  have hget : ∀ found, db.cached app text = found → Goes bm25 ⟨.query q, .ok found⟩ db db := fun found hfound =>
    goes_query (.inr (congrArg Except.ok hfound))
  cases hfound : db.cached app text with
  | some v' =>
    obtain rfl := hv.unique (hcached.vectors text htext v' hfound)
    exact ⟨[⟨.query q, .ok (some v)⟩], db.embeddingCache, ⟨_, rfl, rfl⟩, chain_one (hget _ hfound), hcached⟩
  | none =>
    have hprovider : app.embeddings.embed (canonicalise text) = .ok v := by
      rcases hv with hold | ⟨-, hprovider⟩
      · rw [hcached.keeps text v hold] at hfound
        cases hfound
      · exact hprovider
    obtain ⟨cache, hinsert⟩ := db.cacheInsert_eq (embeddedText app text v)
    let c : Cmd F := .provider app.embeddings (canonicalise text)
    have hdrawn : c.drawn := trivial
    have hasked : Goes bm25 ⟨c, .ok v⟩ db db := by
      have hgoes := goes_drawn bm25 hdrawn ⟨db, [], Oracle.quiet⟩ db
      have hanswer : (exec bm25 c ⟨db, [], Oracle.quiet⟩).1 = .ok v := hprovider
      rwa [hanswer] at hgoes
    have hstated : (Cmd.write (.cacheInsert (embeddedText app text v))).stated := trivial
    have hstored : Goes bm25 ⟨.write (.cacheInsert (embeddedText app text v)), .ok ()⟩ db (db.withCache cache) := by
      rw [← hinsert]
      exact goes_stated bm25 hstated ⟨db, [], Oracle.quiet⟩
    refine ⟨[⟨.write (.cacheInsert (embeddedText app text v)), .ok ()⟩, ⟨c, .ok v⟩, ⟨.query q, .ok none⟩], cache,
      ⟨_, ⟨_, ⟨_, rfl, rfl⟩, rfl⟩, rfl⟩, ⟨db, hget _ hfound, db, hasked, chain_one hstored⟩, ?_⟩
    rw [← hinsert]
    exact hcached.insert hapart htext hprovider

end

end

/-! ## Search and Store -/

def Cmd.uncached (c : Cmd F) : Prop := c.simple ∧ c.access ≠ .veiled

theorem Cmd.surveys.uncached {c : Cmd F} (h : c.surveys) : c.uncached := by
  cases c with
  | query q => cases q <;> first | exact h.elim | exact ⟨.inr trivial, nofun⟩
  | order => exact ⟨.inl trivial, nofun⟩
  | _ => exact h.elim

theorem Cmd.reads.uncached {c : Cmd F} (h : c.reads) : c.uncached := by
  cases c with
  | query q => cases q <;> first | exact h.elim | exact ⟨.inr trivial, nofun⟩
  | _ => exact h.elim

theorem uncached_getManyForUser {user : String} {ids : List String} :
    (getManyForUser user ids : Repo F _).Only Cmd.uncached :=
  only_getManyForUser ⟨.inr trivial, nofun⟩

theorem uncached_write {wr : Write F} (h : (Cmd.write wr).access ≠ .veiled) : (write wr).Only Cmd.uncached :=
  only_write ⟨.inr trivial, h⟩

/-- The request is a Search or a Store of this user. -/
def Caller.reinforces (app : AppState F) (user : String) (t : Caller F) : Prop :=
  t.app = app ∧ t.user = user ∧ ((∃ args, t.request = .memory (.search args)) ∨ ∃ args, t.request = .memory (.store args))

def Caller.text (t : Caller F) : String :=
  match t.request with
  | .memory (.search args) => args.query
  | .memory (.store args) => args.content
  | _ => ""

section
variable {app : AppState F} {user : String}

variable [Field F] [LinearOrder F]

theorem search_parts [Elementary F] {args : SearchMemoryArgs} (hu : args.userId = user) :
    ∃ rest : List F → HandlerM F (ResponseData F),
      handleMemorySearch app args user = (embed app args.query).bind rest ∧ ∀ v, (rest v).Only Cmd.uncached := by
  have hrestore : ∀ ids, (restoreCold args.userId ids : HandlerM F Unit).Only Cmd.uncached := fun ids =>
    only_bind (only_mapError uncached_getManyForUser) fun _ =>
      only_bind (only_mapError (only_unlessEmpty (uncached_write nofun))) fun _ => trivial
  have hstrengthen : ∀ (results : List (SearchResult F)) (now : Int),
      (strengthenResults app args.userId results now).Only Cmd.uncached := by
    refine fun results now => only_bind ?_ fun _ => only_bind (only_mapError (only_unlessEmpty (uncached_write nofun))) fun _ => trivial
    refine only_bind (only_mapError uncached_getManyForUser) fun rows => only_bind (only_call ⟨.inl trivial, nofun⟩) fun u => ?_
    exact only_bind (only_mapError (only_unlessEmpty (uncached_write nofun))) fun _ =>
      only_bind (only_mapError (only_unlessEmpty (uncached_write nofun))) fun _ => trivial
  simp only [handleMemorySearch, requireUserMatch, if_pos hu]
  refine ⟨_, rfl, fun v => only_bind (only_clock ⟨.inl trivial, nofun⟩) fun now => ?_⟩
  refine only_bind (only_mapError (only_search.imp fun _ => Cmd.surveys.uncached)) fun results => ?_
  refine only_bind (only_mapError (only_findBridges.imp fun _ => Cmd.reads.uncached)) fun bridges => ?_
  exact only_bind (only_whenever (hrestore _)) fun _ => only_bind (only_whenever (hstrengthen _ _)) fun _ => trivial

theorem store_parts [Elementary F] {args : StoreMemoryArgs F} (hu : args.userId = user) :
    ∃ rest : List F → HandlerM F (ResponseData F),
      handleMemoryStore app args user = (embed app args.content).bind rest ∧ ∀ v, (rest v).Only Cmd.uncached := by
  simp only [handleMemoryStore, requireUserMatch, if_pos hu]
  refine ⟨_, rfl, fun v => only_bind (only_freshMemoryId ⟨.inl trivial, nofun⟩) fun id => ?_⟩
  refine only_bind (only_clock ⟨.inl trivial, nofun⟩) fun now => only_bind (only_mapError (uncached_write nofun)) fun _ => ?_
  refine only_bind (only_bind ?_ fun hits => only_mapError (uncached_write nofun)) fun _ => trivial
  exact only_mapError (only_search.imp fun _ => Cmd.surveys.uncached)

omit [Field F] [LinearOrder F] in
theorem refused {userId : String} (h : userId ≠ user) : ∃ e, ∀ {α : Type} (f : Unit → HandlerM F α),
    (requireUserMatch userId user >>= f) = .fail e := by
  unfold requireUserMatch
  rw [if_neg h]
  exact ⟨_, fun f => rfl⟩

theorem request_parts [Elementary F] {t : Caller F} (ht : t.reinforces app user) :
    (∃ e, handleRequest t.app t.request t.user = .fail e) ∨
      ∃ rest : List F → HandlerM F (ResponseData F), handleRequest t.app t.request t.user = (embed app t.text).bind rest ∧
        ∀ v, (rest v).Only Cmd.uncached := by
  obtain ⟨rfl, rfl, ⟨args, hreq⟩ | ⟨args, hreq⟩⟩ := ht
  · have htext : t.text = args.query := by rw [Caller.text, hreq]
    rw [hreq, htext]
    by_cases hu : args.userId = t.user
    · exact .inr (search_parts hu)
    · obtain ⟨e, he⟩ := refused (F := F) hu
      exact .inl ⟨e, he _⟩
  · have htext : t.text = args.content := by rw [Caller.text, hreq]
    rw [hreq, htext]
    by_cases hu : args.userId = t.user
    · exact .inr (store_parts hu)
    · obtain ⟨e, he⟩ := refused (F := F) hu
      exact .inl ⟨e, he _⟩

/-! ## The cache in a run -/

variable {texts : List String} {bm25 : Bm25 F} {db₀ : Db F}

variable [Elementary F]

/-- Told `es`, the request is answered so wherever the cache has grown from that of `db₀`. -/
def Served (bm25 : Bm25 F) (app : AppState F) (texts : List String) (db₀ : Db F) (l : Exchange F)
    (es : History (Cmd F) Cmd.Res) : Prop :=
  ∀ d d' : Db F, Chain (Holds bm25) es d d' → ∀ cache, Cached app texts db₀ (d.withCache cache) →
    ∃ cache', Cached app texts db₀ (d'.withCache cache') ∧ ∀ o : Oracle, ∃ o' : Oracle, o'.clock = clockedAll es o.clock ∧
      ∀ minted, ∃ minted', serving bm25 l ⟨d.withCache cache, minted, o'⟩ ⟨d'.withCache cache', minted', o⟩

/-- The request is answered so at the beginning, and does nothing. -/
def Barren (bm25 : Bm25 F) (db₀ : Db F) (l : Exchange F) : Prop :=
  ∀ o : Oracle, ∃ o' : Oracle, o'.clock = o.clock ∧ ∀ minted, ∃ minted', serving bm25 l ⟨db₀, minted, o'⟩ ⟨db₀, minted', o⟩

omit [Field F] [LinearOrder F] [Elementary F] in
theorem clockedAll_veiled {es : History (Cmd F) Cmd.Res} (h : ∀ e ∈ es, e.1.access = .veiled) (clock : ℕ → Int) :
    clockedAll es clock = clock := by
  induction es with
  | nil => rfl
  | cons e es ih =>
    obtain ⟨c, r⟩ := e
    rw [clockedAll, List.foldr_cons, ← clockedAll, ih fun e' he' => h e' (List.mem_cons_of_mem _ he')]
    have hc := h ⟨c, r⟩ List.mem_cons_self
    cases c with
    | clock => cases hc
    | _ => rfl

omit [Elementary F] in
theorem chain_goes {es : History (Cmd F) Cmd.Res} {d d' : Db F} (h : Chain (Holds bm25) es d d')
    (cache : List (CacheRow F)) :
    Chain (Goes bm25) es (d.withCache cache) (d'.withCache cache) := by
  induction es generalizing d with
  | nil => exact congrArg (·.withCache cache) h
  | cons e es ih =>
    obtain ⟨d₁, he, hes⟩ := h
    exact ⟨_, he cache, ih hes⟩

theorem serving_of_goes {l : Exchange F} {h : History (Cmd F) Cmd.Res} {db db' : Db F}
    (hran : Ran (handleRequest l.1.app l.1.request l.1.user) h (ofExcept l.2)) (hchain : Chain (Goes bm25) h.reverse db db') (o : Oracle) :
    ∃ o' : Oracle, o'.clock = clockedAll h.reverse o.clock ∧ ∀ minted, ∃ minted',
      serving bm25 l ⟨db, minted, o'⟩ ⟨db', minted', o⟩ := by
  obtain ⟨o', hclock, hrun⟩ := run_of_goes hran hchain o
  refine ⟨o', hclock, fun minted => ?_⟩
  obtain ⟨minted', hrun⟩ := hrun minted
  refine ⟨minted', hrun.trans ?_⟩
  cases l.2 <;> rfl

theorem served_of_ran (hapart : Apart app texts) {l : Exchange F} (hl : l.1.reinforces app user) (htext : l.1.text ∈ texts)
    {h : History (Cmd F) Cmd.Res} (hran : Ran (handleRequest l.1.app l.1.request l.1.user) h (ofExcept l.2))
    (hgood : ∀ e ∈ h, Attested bm25 app texts db₀ e) :
    (h.filter fun e => e.1.access ≠ .veiled) = [] ∧ Barren bm25 db₀ l ∨
      Served bm25 app texts db₀ l (h.filter fun e => e.1.access ≠ .veiled).reverse := by
  rcases request_parts hl with ⟨e, he⟩ | ⟨rest, hparts, hrest⟩
  · have hnil : h = [] := by
      rw [he] at hran
      exact (ran_fail hran).1
    subst hnil
    exact .inl ⟨rfl, fun o => serving_of_goes hran rfl o⟩
  have hquiet : ∀ {h' : History (Cmd F) Cmd.Res} {p : HandlerM F (List F)}, Ran (embed app l.1.text) h' p →
      ∀ e ∈ h', e.1.access = .veiled := fun hran' => ((only_veiled app l.1.text).ran hran').2
  -- once it has its vector, the request goes on alike wherever it can get the same
  have hembedded : ∀ {v : List F} {g h' : History (Cmd F) Cmd.Res}, h = g ++ h' → Ran (embed app l.1.text) h' (.pure v) →
      Ran (rest v) g (ofExcept l.2) → Served bm25 app texts db₀ l (h.filter fun e => e.1.access ≠ .veiled).reverse := by
    rintro v g h' rfl hembed hrun d d' hchain cache hcached
    have hold : h'.filter (fun e => e.1.access ≠ .veiled) = [] :=
      List.filter_eq_nil_iff.mpr fun e he => by simp [hquiet hembed e he]
    have hnew : g.filter (fun e => e.1.access ≠ .veiled) = g :=
      List.filter_eq_self.mpr fun e he => by simpa using (((hrest v).ran hrun).2 e he).2
    rw [List.filter_append, hold, hnew, List.append_nil] at hchain ⊢
    have hv := vector_of_ran hembed (fun e he => hgood e (List.mem_append_right _ he)) htext
    obtain ⟨h'', cache', hagain, hgoes, hcached'⟩ := embed_again bm25 hapart htext hcached hv
    refine ⟨cache', hcached'.same rfl, fun o => ?_⟩
    have hwhole : Ran (handleRequest l.1.app l.1.request l.1.user) (g ++ h'') (ofExcept l.2) := by
      rw [hparts]
      exact (hagain.bind rest).trans hrun
    have hchained : Chain (Goes bm25) (g ++ h'').reverse (d.withCache cache) (d'.withCache cache') := by
      rw [List.reverse_append]
      exact hgoes.append (chain_goes hchain cache')
    obtain ⟨o', hclock, hserved⟩ := serving_of_goes hwhole hchained o
    refine ⟨o', ?_, hserved⟩
    rw [hclock, List.reverse_append, clockedAll, List.foldr_append]
    exact clockedAll_veiled (fun e he => hquiet hagain e (List.mem_reverse.mp he)) _
  have hbound := hran
  rw [hparts] at hbound
  rcases ran_bind hbound with ⟨p', hembed, hend⟩ | ⟨v, g, h', heq, hembed, hrun⟩
  · cases p' with
    | pure v => exact .inr (hembedded (g := []) rfl hembed hend)
    | cmd c k =>
      exfalso
      revert hend
      cases l.2 <;> exact nofun
    | fail e =>
      refine .inl ⟨List.filter_eq_nil_iff.mpr fun e he => by simp [hquiet hembed e he], fun o => ?_⟩
      obtain ⟨o', hclock, hserved⟩ := serving_of_goes hran (chain_of_failed hembed hgood) o
      exact ⟨o', hclock.trans (clockedAll_veiled (fun e he => hquiet hembed e (List.mem_reverse.mp he)) _), hserved⟩
  · exact .inr (hembedded heq hembed hrun)

end

/-! ## The clock -/

variable {es : History (Cmd F) Cmd.Res} {clock : ℕ → Int}

variable [Field F] [LinearOrder F]

theorem exec_clock (bm25 : Bm25 F) {c : Cmd F} {w : World F} (h : Monotone w.oracle.clock) :
    Monotone (exec bm25 c w).2.oracle.clock ∧ w.oracle.clock 0 ≤ (exec bm25 c w).2.oracle.clock 0 := by
  cases c with
  | clock => exact ⟨fun m n hmn => h (Nat.succ_le_succ hmn), h (Nat.zero_le 1)⟩
  | write wr =>
    simp only [exec]
    split
    · exact ⟨h, le_refl _⟩
    · split <;> exact ⟨h, le_refl _⟩
  | resolveConflicts =>
    simp only [exec]
    split <;> exact ⟨h, le_refl _⟩
  | _ => exact ⟨h, le_refl _⟩

/-- What the clock has been read as since `start`. -/
structure Punctual (start : Int) (p : Requests F) : Prop where
  clock : Monotone p.state.oracle.clock
  since : start ≤ p.state.oracle.clock 0
  past : ∀ e ∈ p.log, ∀ now, (⟨e.command, e.answer⟩ : (c : Cmd F) × c.Res) = ⟨.clock, now⟩ →
    start ≤ now ∧ now ≤ p.state.oracle.clock 0

theorem Punctual.turn {start : Int} {p : Requests F} (h : Punctual start p) (bm25 : Bm25 F) {i : ℕ} {t : Caller F}
    {c : Cmd F} (hn : p.next? i = some (t, c)) : Punctual start (p.turn (exec bm25) i) := by
  obtain ⟨k, -, hturn⟩ := Pool.turn_some (x := exec bm25) hn
  obtain ⟨hmono, hclock⟩ := exec_clock bm25 (c := c) h.clock
  rw [hturn]
  refine ⟨hmono, h.since.trans hclock, fun e he now heq => ?_⟩
  rcases List.mem_cons.mp he with rfl | he
  · obtain ⟨rfl, hans⟩ := Sigma.mk.inj heq
    rw [← eq_of_heq hans]
    exact ⟨h.since, hclock⟩
  · exact ⟨(h.past e he now heq).1, (h.past e he now heq).2.trans hclock⟩

theorem Punctual.onward {start : Int} {p : Requests F} (h : Punctual start p) (bm25 : Bm25 F) (c : Cmd F) :
    ∀ e ∈ p.log, Onward ⟨e.command, e.answer⟩ ⟨c, (exec bm25 c p.state).1⟩ := by
  rintro ⟨task, command, answer⟩ he
  cases command with
  | clock =>
    cases c with
    | clock => exact (h.past _ he answer rfl).2
    | _ => trivial
  | _ => trivial

/-! ## Requests that have all ended -/

section
variable {app : AppState F} {user : String} {bm25 : Bm25 F}

/-- The requests that have ended, with their answers. -/
def outcomes (p : Requests F) : List (Exchange F) := p.tasks.filterMap fun task => task.2.ended?.map fun r => (task.1, r)

/-- All of them have. -/
def AllEnded (p : Requests F) : Prop := ∀ i < p.tasks.length, p.next? i = none

section
variable {p : Requests F} {answered : List (Exchange F)}

instance (p : Requests F) : Decidable (AllEnded p) := inferInstanceAs (Decidable (∀ i < p.tasks.length, p.next? i = none))

omit [Field F] [LinearOrder F] in
theorem AllEnded.next? (h : AllEnded p) (i : ℕ) : p.next? i = none := by
  by_cases hi : i < p.tasks.length
  · exact h i hi
  · simp [Pool.next?, List.getElem?_eq_none (Nat.le_of_not_lt hi)]

omit [Field F] [LinearOrder F] in
theorem AllEnded.tasks (h : AllEnded p) : p.tasks = (outcomes p).map fun l => (l.1, Prog.ofExcept l.2) := by
  have hall : ∀ task ∈ p.tasks, ∀ c k, task.2 ≠ .cmd c k := by
    rintro ⟨t, prog⟩ htask c k rfl
    obtain ⟨i, hi, hget⟩ := List.getElem_of_mem htask
    have hnext := h i hi
    simp [Pool.next?, List.getElem?_eq_getElem hi, hget] at hnext
  unfold outcomes
  generalize p.tasks = tasks at hall
  induction tasks with
  | nil => rfl
  | cons task tasks ih =>
    obtain ⟨hfirst, hrest⟩ := List.forall_mem_cons.mp hall
    obtain ⟨t, prog⟩ := task
    cases prog with
    | cmd c k => exact absurd rfl (hfirst c k)
    | _ => exact congrArg (List.cons _) (ih hrest)

variable [Elementary F]

/-- What is known of the requests when they have all ended. -/
structure Concluded (bm25 : Bm25 F) (app : AppState F) (w : World F) (ts : List (Caller F)) (p : Requests F)
    (order active : List ℕ) : Prop where
  inOrder : p.InOrder (exec bm25) Cmd.simple Cmd.access (fun w => w.db.withCache []) (Holds bm25) Onward (w.db.withCache [])
    order active
  punctual : Punctual (w.oracle.clock 0) p
  remembers : p.Remembers (ts.map fun t => (t, handleRequest t.app t.request t.user))
  attested : ∀ e ∈ p.log, Attested bm25 app (ts.map Caller.text) w.db ⟨e.command, e.answer⟩

namespace Concluded
variable {w : World F} {ts : List (Caller F)} {order active : List ℕ}

theorem served (h : Concluded bm25 app w ts p order active) (hts : ∀ t ∈ ts, t.reinforces app user)
    (hapart : Apart app (ts.map Caller.text)) (hended : AllEnded p) {i : ℕ} {l : Exchange F} (hi : (outcomes p)[i]? = some l) :
    Pool.told Cmd.access p.log i = [] ∧ Barren bm25 w.db l ∨
      Served bm25 app (ts.map Caller.text) w.db l (Pool.told Cmd.access p.log i) := by
  have htask : p.tasks[i]? = some (l.1, Prog.ofExcept l.2) := by
    rw [hended.tasks, List.getElem?_map, hi]
    rfl
  obtain ⟨p₀, hp₀, hran⟩ := h.remembers.ran i _ htask
  obtain ⟨t, ht, heq⟩ := List.mem_map.mp (List.mem_of_getElem? hp₀)
  obtain ⟨htl, rfl⟩ := Prod.mk.inj heq
  obtain rfl : t = l.1 := htl
  have hgood : ∀ e ∈ Pool.seen p.log i, Attested bm25 app (ts.map Caller.text) w.db e := by
    intro e he
    obtain ⟨event, hevent, heq⟩ := List.mem_filterMap.mp he
    split at heq
    · cases heq
      exact h.attested event hevent
    · cases heq
  have hserved := served_of_ran hapart (hts l.1 ht) (List.mem_map_of_mem ht) hran hgood
  refine hserved.imp_left fun hbarren => ⟨?_, hbarren.2⟩
  rw [Pool.told, hbarren.1, List.reverse_nil]

end Concluded
end

/-- A request that has not written yet is current whenever it reads, writes or ends. -/
abbrev Fresh (bm25 : Bm25 F) (p : Requests F) (i : ℕ) (t : Caller F) (c : Cmd F) : Prop :=
  p.Fresh (exec bm25) Cmd.access (Still bm25) Onward i t c

variable [Elementary F]

end

end CognitiveMemory
