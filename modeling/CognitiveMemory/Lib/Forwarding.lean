import Mathlib.Data.List.Nodup
import Mathlib.Data.List.Perm.Subperm
import Mathlib.Logic.Relation

/-! Tables whose entries have an owner and may forward to another entry: when following the
pointers ends at a live entry of the same owner, and which operations keep it so. -/

namespace Forwarding

inductive Standing (K : Type)
  | live
  | moved (target : Option K)
  deriving DecidableEq

abbrev Table (K O : Type) := K → Option (O × Standing K)

namespace Table
variable {K O : Type}

def Reaches (T : Table K O) (o : O) : ℕ → K → Prop
  | 0, k => T k = some (o, .live)
  | n + 1, k => ∃ owner next, T k = some (owner, .moved (some next)) ∧ Reaches T o n next

instance decReaches [DecidableEq K] [DecidableEq O] (T : Table K O) (o : O) : ∀ n k, Decidable (T.Reaches o n k)
  | 0, k => inferInstanceAs (Decidable (T k = some (o, .live)))
  | n + 1, k =>
    have := decReaches T o n
    match h : T k with
    | some (owner, .moved (some next)) =>
      decidable_of_iff (T.Reaches o n next) ⟨fun hr => ⟨owner, next, h, hr⟩,
        fun ⟨_, _, h', hr⟩ => by cases h.symm.trans h'; exact hr⟩
    | some (_, .moved none) => isFalse fun ⟨_, _, h', _⟩ => by cases h.symm.trans h'
    | some (_, .live) => isFalse fun ⟨_, _, h', _⟩ => by cases h.symm.trans h'
    | none => isFalse fun ⟨_, _, h', _⟩ => by cases h.symm.trans h'

/-- From every entry the pointers lead to a live one of its owner. -/
def Resolves (T : Table K O) : Prop := ∀ k e, T k = some e → ∃ n, T.Reaches e.1 n k

variable {T T' : Table K O} {o o' : O} {n m : ℕ} {k next : K}

theorem Reaches.entry (h : T.Reaches o n k) : ∃ e, T k = some e := by
  cases n with
  | zero => exact ⟨_, h⟩
  | succ n =>
    obtain ⟨owner, next, hk, -⟩ := h
    exact ⟨_, hk⟩

theorem Reaches.mono (h : T.Reaches o n k) (hsub : ∀ k e, T k = some e → T' k = some e) : T'.Reaches o n k := by
  induction n generalizing k with
  | zero => exact hsub _ _ h
  | succ n ih =>
    obtain ⟨owner, next, hk, hnext⟩ := h
    exact ⟨owner, next, hsub _ _ hk, ih hnext⟩

theorem Reaches.unique (h : T.Reaches o n k) (h' : T.Reaches o' m k) : o = o' ∧ n = m := by
  induction n generalizing k m with
  | zero =>
    have hk : T k = some (o, .live) := h
    cases m with
    | zero =>
      have hk' : T k = some (o', .live) := h'
      rw [hk] at hk'
      cases hk'
      exact ⟨rfl, rfl⟩
    | succ m =>
      obtain ⟨owner, next, hk', -⟩ := h'
      rw [hk] at hk'
      cases hk'
  | succ n ih =>
    obtain ⟨owner, next, hk, hnext⟩ := h
    cases m with
    | zero =>
      have hk' : T k = some (o', .live) := h'
      rw [hk] at hk'
      cases hk'
    | succ m =>
      obtain ⟨owner', next', hk', hnext'⟩ := h'
      rw [hk] at hk'
      cases hk'
      obtain ⟨ho, hn⟩ := ih hnext hnext'
      exact ⟨ho, congrArg Nat.succ hn⟩

theorem Resolves.owner (h : T.Resolves) (hk : T k = some (o, .moved (some next))) : ∃ s, T next = some (o, s) := by
  obtain ⟨n, hn⟩ := h k _ hk
  cases n with
  | zero =>
    have hlive : T k = some (o, .live) := hn
    rw [hk] at hlive
    cases hlive
  | succ n =>
    obtain ⟨owner, next', hk', hnext⟩ := hn
    rw [hk] at hk'
    cases hk'
    obtain ⟨⟨owner', s⟩, he⟩ := hnext.entry
    obtain ⟨m, hm⟩ := h next _ he
    obtain ⟨rfl, -⟩ := hnext.unique hm
    exact ⟨s, he⟩

theorem Reaches.path (h : T.Reaches o n k) :
    ∃ path : List K, path.length = n + 1 ∧ path.Nodup ∧ ∀ x ∈ path, ∃ m ≤ n, T.Reaches o m x := by
  induction n generalizing k with
  | zero => exact ⟨[k], rfl, List.nodup_singleton k, by simpa using h⟩
  | succ n ih =>
    obtain ⟨owner, next, hk, hnext⟩ := h
    obtain ⟨path, hlen, hnodup, hpath⟩ := ih hnext
    refine ⟨k :: path, by rw [List.length_cons, hlen], List.nodup_cons.mpr ⟨fun hmem => ?_, hnodup⟩, ?_⟩
    · obtain ⟨m, hm, hreach⟩ := hpath k hmem
      have hself : T.Reaches o (n + 1) k := ⟨owner, next, hk, hnext⟩
      have heq := (hreach.unique hself).2
      omega
    · refine List.forall_mem_cons.mpr ⟨⟨n + 1, Nat.le_refl _, owner, next, hk, hnext⟩, fun x hx => ?_⟩
      obtain ⟨m, hm, hreach⟩ := hpath x hx
      exact ⟨m, Nat.le_succ_of_le hm, hreach⟩

theorem Reaches.lt_length (h : T.Reaches o n k) {ks : List K} (hks : ∀ k e, T k = some e → k ∈ ks) : n < ks.length := by
  obtain ⟨path, hlen, hnodup, hpath⟩ := h.path
  have hsub : path ⊆ ks := by
    intro x hx
    obtain ⟨m, -, hreach⟩ := hpath x hx
    obtain ⟨e, he⟩ := hreach.entry
    exact hks x e he
  have hle := (hnodup.subperm hsub).length_le
  omega

/-! ## Operations -/

def insert [DecidableEq K] (T : Table K O) (key : K) (o : O) : Table K O := fun k => if k = key then some (o, .live) else T k

def redirect (T : Table K O) (S : K → O → Bool) (target : K) : Table K O := fun k =>
  (T k).map fun e => if S k e.1 then (e.1, .moved (some target)) else e

def remove (T : Table K O) (S : K → O → Bool) : Table K O := fun k => (T k).filter fun e => !S k e.1

variable {S : K → O → Bool} {target : K}

theorem remove_some {e : O × Standing K} : T.remove S k = some e ↔ T k = some e ∧ S k e.1 = false := by
  simp [remove, Option.filter_eq_some_iff]

theorem redirect_of_mem (target : K) {e : O × Standing K} (hk : T k = some e) (hS : S k e.1) :
    T.redirect S target k = some (e.1, .moved (some target)) := by
  simp [redirect, hk, hS]

theorem redirect_of_not_mem {e : O × Standing K} (hk : T k = some e) (hS : S k e.1 = false) :
    T.redirect S target k = some e := by
  simp [redirect, hk, hS]

theorem redirect_some {e : O × Standing K} (h : T.redirect S target k = some e) :
    ∃ s, T k = some (e.1, s) ∧ (S k e.1 ∧ e.2 = .moved (some target) ∨ S k e.1 = false ∧ e.2 = s) := by
  cases hk : T k with
  | none => simp [redirect, hk] at h
  | some e₀ =>
    obtain ⟨o₀, s₀⟩ := e₀
    cases hS : S k o₀ with
    | true =>
      rw [redirect_of_mem target hk hS] at h
      cases h
      exact ⟨s₀, rfl, .inl ⟨hS, rfl⟩⟩
    | false =>
      rw [redirect_of_not_mem hk hS] at h
      cases h
      exact ⟨s₀, rfl, .inr ⟨hS, rfl⟩⟩

theorem Resolves.insert [DecidableEq K] (h : T.Resolves) {key : K} (hkey : T key = none) : (T.insert key o).Resolves := by
  have hsub : ∀ k e, T k = some e → T.insert key o k = some e := by
    intro k e hk
    have hne : k ≠ key := fun heq => by
      rw [heq, hkey] at hk
      cases hk
    simpa [Table.insert, hne] using hk
  intro k e hk
  by_cases heq : k = key
  · subst heq
    have hlive : T.insert k o k = some (o, .live) := if_pos rfl
    rw [hlive] at hk
    cases hk
    exact ⟨0, hlive⟩
  · have hold : T k = some e := by simpa [Table.insert, heq] using hk
    obtain ⟨n, hn⟩ := h k e hold
    exact ⟨n, hn.mono hsub⟩

theorem redirect_nothing : T.redirect (fun _ _ => false) target = T := by
  funext k
  simp [redirect]

theorem redirect_redirect {S' : K → O → Bool} :
    (T.redirect S target).redirect S' target = T.redirect (fun k o => S k o || S' k o) target := by
  funext k
  cases hk : T k with
  | none => simp [redirect, hk]
  | some e => cases hS : S k e.1 <;> cases hS' : S' k e.1 <;> simp [redirect, hk, hS, hS']

/-- Redirecting keeps resolution if the target resolves without the redirected entries. -/
theorem Resolves.redirect (h : T.Resolves) (howner : ∀ k e, T k = some e → S k e.1 → e.1 = o)
    (htarget : (∃ k e, T k = some e ∧ S k e.1) → ∃ n, (T.remove S).Reaches o n target) : (T.redirect S target).Resolves := by
  have hmarked : ∀ k e, T k = some e → S k e.1 → ∃ m, (T.redirect S target).Reaches o m k := by
    intro k e hk hS
    obtain ⟨n, hn⟩ := htarget ⟨k, e, hk, hS⟩
    refine ⟨n + 1, e.1, target, redirect_of_mem target hk hS, hn.mono fun x ex hx => ?_⟩
    obtain ⟨hx, hSx⟩ := remove_some.mp hx
    exact redirect_of_not_mem hx hSx
  have hold : ∀ n k o', T.Reaches o' n k → ∃ m, (T.redirect S target).Reaches o' m k := by
    intro n
    induction n with
    | zero =>
      intro k o' hk
      cases hS : S k o' with
      | true =>
        obtain rfl : o' = o := howner k _ hk hS
        exact hmarked k _ hk hS
      | false => exact ⟨0, redirect_of_not_mem hk hS⟩
    | succ n ih =>
      rintro k o' ⟨owner, next, hk, hnext⟩
      cases hS : S k owner with
      | true =>
        obtain ⟨m, hm⟩ := h k _ hk
        have hself : T.Reaches o' (n + 1) k := ⟨owner, next, hk, hnext⟩
        obtain rfl : owner = o' := (hm.unique hself).1
        obtain rfl : owner = o := howner k _ hk hS
        exact hmarked k _ hk hS
      | false =>
        obtain ⟨m, hm⟩ := ih next o' hnext
        exact ⟨m + 1, owner, next, redirect_of_not_mem hk hS, hm⟩
  intro k e hk
  obtain ⟨s, hs, -⟩ := redirect_some hk
  obtain ⟨n, hn⟩ := h k _ hs
  exact hold n k e.1 hn

/-- Only then: a chain that came back to a redirected entry would never end. -/
theorem reaches_of_redirect (h : (T.redirect S target).Resolves) (howner : ∀ k e, T k = some e → S k e.1 → e.1 = o)
    {e : O × Standing K} (hk : T k = some e) (hS : S k e.1) : ∃ n, (T.remove S).Reaches o n target := by
  have hpointer := redirect_of_mem target hk hS
  obtain ⟨n, hn⟩ := h k _ hpointer
  obtain rfl : e.1 = o := howner k e hk hS
  cases n with
  | zero =>
    have hlive : T.redirect S target k = some (e.1, .live) := hn
    rw [hpointer] at hlive
    cases hlive
  | succ n =>
    obtain ⟨owner, next, hk', hnext⟩ := hn
    rw [hpointer] at hk'
    cases hk'
    have hoff : ∀ m ≤ n, ∀ x, (T.redirect S target).Reaches e.1 m x → (T.remove S).Reaches e.1 m x := by
      intro m
      induction m with
      | zero =>
        intro _ x hx
        obtain ⟨s, hs, ⟨-, hmoved⟩ | ⟨hSx, rfl⟩⟩ := redirect_some hx
        · cases hmoved
        · exact remove_some.mpr ⟨hs, hSx⟩
      | succ m ih =>
        rintro hm x ⟨owner, next, hx, hnext'⟩
        obtain ⟨s, hs, ⟨-, hmoved⟩ | ⟨hSx, rfl⟩⟩ := redirect_some hx
        · cases hmoved
          have heq := (hnext'.unique hnext).2
          omega
        · exact ⟨owner, next, remove_some.mpr ⟨hs, hSx⟩, ih (Nat.le_of_succ_le hm) next hnext'⟩
    exact ⟨n, hoff n (Nat.le_refl n) _ hnext⟩

/-- Removing keeps resolution exactly if nothing left points at what goes. -/
theorem Resolves.remove_iff (h : T.Resolves) : (T.remove S).Resolves ↔ ∀ k o next s, T k = some (o, .moved (some next)) →
    S k o = false → T next = some (o, s) → S next o = false := by
  constructor
  · intro hr k o next s hk hSk hnext
    have hkeep : T.remove S k = some (o, .moved (some next)) := remove_some.mpr ⟨hk, hSk⟩
    obtain ⟨s', hs'⟩ := hr.owner hkeep
    exact (remove_some.mp hs').2
  · intro hkeep
    have hchain : ∀ n k o s, T k = some (o, s) → S k o = false → T.Reaches o n k → (T.remove S).Reaches o n k := by
      intro n
      induction n with
      | zero => exact fun k o s _ hSk hn => remove_some.mpr ⟨hn, hSk⟩
      | succ n ih =>
        rintro k o s hk hSk ⟨owner, next, hk', hnext⟩
        cases hk.symm.trans hk'
        obtain ⟨s', hs'⟩ := h.owner hk
        exact ⟨o, next, remove_some.mpr ⟨hk, hSk⟩, ih next o s' hs' (hkeep k o next s' hk hSk hs') hnext⟩
    rintro k ⟨o, s⟩ hrem
    obtain ⟨hk, hSk⟩ := remove_some.mp hrem
    obtain ⟨n, hn⟩ := h k _ hk
    exact ⟨n, hchain n k o s hk hSk hn⟩

/-! ## Pointing live entries at live ones -/

def Extends (T' T : Table K O) : Prop := ∀ k o s, T k = some (o, s) → ∃ s', T' k = some (o, s') ∧ (s ≠ .live → s' = s)

theorem Extends.refl (T : Table K O) : T.Extends T := fun _ _ s hk => ⟨s, hk, fun _ => rfl⟩

theorem Extends.trans {T'' : Table K O} (h : T''.Extends T') (h' : T'.Extends T) : T''.Extends T := by
  intro k o s hk
  obtain ⟨s', hs', hkeep⟩ := h' k o s hk
  obtain ⟨s'', hs'', hkeep'⟩ := h k o s' hs'
  refine ⟨s'', hs'', fun hs => ?_⟩
  obtain rfl := hkeep hs
  exact hkeep' hs

theorem extends_insert [DecidableEq K] {key : K} (hkey : T key = none) : (T.insert key o).Extends T := by
  intro k owner s hk
  have hne : k ≠ key := fun heq => by
    rw [heq, hkey] at hk
    cases hk
  exact ⟨s, by simpa [Table.insert, hne] using hk, fun _ => rfl⟩

inductive Merged [BEq K] (T : Table K O) : Table K O → Prop
  | refl : Merged T T
  | step {T' : Table K O} {owner : O} {winner loser : K} (h : Merged T T') (hwinner : T' winner = some (owner, .live))
      (hloser : T' loser = some (owner, .live)) (hne : (winner == loser) = false) :
      Merged T (T'.redirect (fun k _ => k == loser) winner)

variable [BEq K] [LawfulBEq K]

theorem Merged.resolves (h : T.Merged T') (hT : T.Resolves) : T'.Resolves := by
  induction h with
  | refl => exact hT
  | step _ hwinner hloser hne ih =>
    refine ih.redirect (fun k e he hS => ?_) fun _ => ⟨0, remove_some.mpr ⟨hwinner, hne⟩⟩
    rw [eq_of_beq hS, hloser] at he
    exact congrArg Prod.fst (Option.some.inj he).symm

theorem Merged.extends (h : T.Merged T') : T'.Extends T := by
  induction h with
  | refl => exact .refl T
  | @step T' _ winner loser _ hwinner hloser hne ih =>
    refine Extends.trans ?_ ih
    intro k owner s hk
    cases hS : k == loser with
    | true =>
      refine ⟨.moved (some winner), redirect_of_mem winner hk hS, fun hs => absurd ?_ hs⟩
      rw [eq_of_beq hS, hloser] at hk
      exact (congrArg Prod.snd (Option.some.inj hk)).symm
    | false => exact ⟨s, redirect_of_not_mem hk hS, fun _ => rfl⟩

/-! ## Contests -/

inductive Contest [BEq K] (beats : K → K → Prop) (T : Table K O) : List K → Table K O → Prop
  | refl : Contest beats T [] T
  | step {losers : List K} {T' : Table K O} {owner : O} {winner loser : K} (h : Contest beats T losers T')
      (hwinner : T' winner = some (owner, .live)) (hloser : T' loser = some (owner, .live)) (hne : (winner == loser) = false)
      (hbeats : beats winner loser) : Contest beats T (loser :: losers) (T'.redirect (fun k _ => k == loser) winner)

section
variable {beats : K → K → Prop} {losers : List K}

omit [LawfulBEq K] in
theorem Contest.trans {T'' : Table K O} {losers' : List K} (h : T.Contest beats losers T')
    (h' : T'.Contest beats losers' T'') :
    T.Contest beats (losers' ++ losers) T'' := by
  induction h' with
  | refl => exact h
  | step _ hwinner hloser hne hbeats ih => exact .step ih hwinner hloser hne hbeats

omit [LawfulBEq K] in
theorem Contest.mono {beats' : K → K → Prop} (h : T.Contest beats losers T') (himp : ∀ w l, beats w l → beats' w l) :
    T.Contest beats' losers T' := by
  induction h with
  | refl => exact .refl
  | step _ hwinner hloser hne hbeats ih => exact .step ih hwinner hloser hne (himp _ _ hbeats)

omit [LawfulBEq K] in
theorem Contest.merged (h : T.Contest beats losers T') : T.Merged T' := by
  induction h with
  | refl => exact .refl
  | step _ hwinner hloser hne _ ih => exact .step ih hwinner hloser hne

theorem Contest.not_mem (h : T.Contest beats losers T') (hk : k ∉ losers) : T' k = T k := by
  induction h with
  | refl => rfl
  | @step losers T' _ winner loser _ _ _ _ _ ih =>
    obtain ⟨hne, hrest⟩ := List.ne_and_not_mem_of_not_mem_cons hk
    rw [← ih hrest]
    cases hentry : T' k with
    | none => simp [redirect, hentry]
    | some e => exact redirect_of_not_mem hentry (beq_eq_false_iff_ne.mpr hne)

theorem Contest.mem (h : T.Contest beats losers T') (hk : k ∈ losers) :
    ∃ o w, T k = some (o, .live) ∧ T' k = some (o, .moved (some w)) ∧ beats w k := by
  induction h with
  | refl => nomatch hk
  | @step losers T' owner winner loser hcontest _ hloser _ hbeats ih =>
    by_cases hlost : k ∈ losers
    · -- An entry that has moved does not lose again.
      obtain ⟨o, w, hlive, hmoved, hw⟩ := ih hlost
      have hne : k ≠ loser := by
        rintro rfl
        rw [hloser] at hmoved
        cases hmoved
      exact ⟨o, w, hlive, redirect_of_not_mem hmoved (beq_eq_false_iff_ne.mpr hne), hw⟩
    · obtain rfl : k = loser := (List.mem_cons.mp hk).resolve_right hlost
      refine ⟨owner, winner, ?_, redirect_of_mem winner hloser (beq_self_eq_true k), hbeats⟩
      rw [← hcontest.not_mem hlost, hloser]

theorem Contest.nodup (h : T.Contest beats losers T') : losers.Nodup := by
  induction h with
  | refl => exact List.nodup_nil
  | step hcontest _ hloser _ _ ih =>
    refine List.nodup_cons.mpr ⟨fun hlost => ?_, ih⟩
    obtain ⟨o, w, -, hmoved, -⟩ := hcontest.mem hlost
    rw [hloser] at hmoved
    cases hmoved

/-- For every live entry one stays that it is connected to by who could beat whom. -/
theorem Contest.survives (h : T.Contest beats losers T') (hk : T k = some (o, .live)) :
    ∃ k', Relation.EqvGen beats k k' ∧ T' k' = some (o, .live) := by
  induction h with
  | refl => exact ⟨k, .refl k, hk⟩
  | @step losers T' owner winner loser _ hwinner hloser hne hbeats ih =>
    obtain ⟨k', hconnected, hlive⟩ := ih
    by_cases heq : k' = loser
    · subst heq
      obtain rfl : owner = o := congrArg Prod.fst (Option.some.inj (hloser.symm.trans hlive))
      exact ⟨winner, hconnected.trans _ _ _ (.symm _ _ (.rel _ _ hbeats)), redirect_of_not_mem hwinner hne⟩
    · exact ⟨k', hconnected, redirect_of_not_mem hlive (beq_eq_false_iff_ne.mpr heq)⟩

end
end Table
end Forwarding
