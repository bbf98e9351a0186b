import CognitiveMemory.Lib.Schedule
import Mathlib.Data.List.Nodup

/-! Memoised calls on one shared table: look the key up, compute on a miss, store what was computed. Any number of
calls run interleaved, and each command may fail or pass the table by. -/

namespace Memo
open Prog (Pool Exec)
variable {χ κ ν ω ε : Type}

/-- What becomes of a command: done, without effect on the table and without a find there, or failed. -/
inductive Fate (ε : Type)
  | done
  | blind
  | failed (e : ε)
  deriving DecidableEq, Repr

structure State (κ ν ε : Type) where
  table : List (κ × ν)
  fates : ℕ → Fate ε

inductive Cmd (χ κ ν : Type)
  | lookup (k : κ)
  | compute (x : χ)
  | store (k : κ) (v : ν)

@[reducible] def Cmd.Res (ω ε : Type) : Cmd χ κ ν → Type
  | .lookup _ => Except ε (Option ν)
  | .compute _ => Except ε ω
  | .store _ _ => Except ε Unit

/-! ## Tables -/

/-- INSERT OR IGNORE. -/
def putIfAbsent [DecidableEq κ] (table : List (κ × ν)) (k : κ) (v : ν) : List (κ × ν) :=
  if k ∈ table.map Prod.fst then table else table ++ [(k, v)]

def putOver [DecidableEq κ] (table : List (κ × ν)) (k : κ) (v : ν) : List (κ × ν) :=
  (k, v) :: table.filter fun kv => kv.1 ≠ k

def Puts (put : List (κ × ν) → κ → ν → List (κ × ν)) : Prop :=
  ∀ table k v, ∀ kv ∈ put table k v, kv ∈ table ∨ kv = (k, v)

theorem puts_putIfAbsent [DecidableEq κ] : Puts (putIfAbsent : List (κ × ν) → κ → ν → List (κ × ν)) := by
  intro table k v kv hkv
  unfold putIfAbsent at hkv
  split at hkv
  · exact .inl hkv
  · exact (List.mem_append.mp hkv).imp id List.mem_singleton.mp

theorem puts_putOver [DecidableEq κ] : Puts (putOver : List (κ × ν) → κ → ν → List (κ × ν)) := by
  intro table k v kv hkv
  rcases List.mem_cons.mp hkv with rfl | hkv
  · exact .inr rfl
  · exact .inl (List.mem_filter.mp hkv).1

theorem nodup_putIfAbsent [DecidableEq κ] {table : List (κ × ν)} (h : (table.map Prod.fst).Nodup) (k : κ) (v : ν) :
    ((putIfAbsent table k v).map Prod.fst).Nodup := by
  unfold putIfAbsent
  split
  · exact h
  · rename_i hnew
    rw [List.map_append]
    exact h.append (List.nodup_singleton k) (List.disjoint_singleton.mpr hnew)

theorem rows_of_key [DecidableEq κ] {table : List (κ × ν)} (h : (table.map Prod.fst).Nodup) (k : κ) :
    (table.filter fun row => row.1 = k).length ≤ 1 := by
  have hcount : (table.map Prod.fst).count k ≤ 1 := List.nodup_iff_count_le_one.mp h k
  rw [← List.countP_eq_length_filter]
  rw [List.count, List.countP_map] at hcount
  refine le_of_eq_of_le (List.countP_congr fun row _ => ?_) hcount
  simp

theorem mem_of_lookup [DecidableEq κ] {table : List (κ × ν)} {k : κ} {v : ν} (h : table.lookup k = some v) :
    (k, v) ∈ table := by
  obtain ⟨before, after, rfl, -⟩ := List.lookup_eq_some_iff.mp h
  exact List.mem_append_right _ List.mem_cons_self

/-! ## Calls -/

structure Spec (χ κ ν ω ε : Type) where
  key : χ → κ
  answer : χ → Except ε ω
  encode : ω → ν
  decode : ν → ω
  put : List (κ × ν) → κ → ν → List (κ × ν)

def State.next (s : State κ ν ε) (table : List (κ × ν)) : State κ ν ε := ⟨table, fun n => s.fates (n + 1)⟩

def exec [DecidableEq κ] (m : Spec χ κ ν ω ε) : Exec (Cmd χ κ ν) (Cmd.Res ω ε) (State κ ν ε)
  | .lookup k, s => (match s.fates 0 with
    | .done => .ok (s.table.lookup k)
    | .blind => .ok none
    | .failed e => .error e, s.next s.table)
  | .compute x, s => (match s.fates 0 with
    | .failed e => .error e
    | _ => m.answer x, s.next s.table)
  | .store k v, s => match s.fates 0 with
    | .done => (.ok (), s.next (m.put s.table k v))
    | .blind => (.ok (), s.next s.table)
    | .failed e => (.error e, s.next s.table)

theorem fates_exec [DecidableEq κ] (m : Spec χ κ ν ω ε) (c : Cmd χ κ ν) (s : State κ ν ε) (n : ℕ) :
    (exec m c s).2.fates n = s.fates (n + 1) := by
  cases c with
  | lookup k => rfl
  | compute x => rfl
  | store k v =>
    simp only [exec]
    split <;> rfl

abbrev CallM (χ κ ν ω ε α : Type) := Prog (Cmd χ κ ν) (Cmd.Res ω ε) ε α

def lookup (k : κ) : CallM χ κ ν ω ε (Option ν) := Prog.cmd (.lookup k) Prog.ofExcept

def compute (x : χ) : CallM χ κ ν ω ε ω := Prog.cmd (.compute x) Prog.ofExcept

def store (k : κ) (v : ν) : CallM χ κ ν ω ε Unit := Prog.cmd (.store k v) Prog.ofExcept

namespace Spec
variable (m : Spec χ κ ν ω ε)

def onAnswer (x : χ) (y : ω) : CallM χ κ ν ω ε ω := do
  store (m.key x) (m.encode y)
  pure y

def onMiss (x : χ) : CallM χ κ ν ω ε ω := do
  let y ← compute x
  m.onAnswer x y

def call (x : χ) : CallM χ κ ν ω ε ω := do
  let found ← lookup (m.key x)
  match found with
  | some v => pure (m.decode v)
  | none => m.onMiss x

/-- How far a call can have come when commands fail with `faulty` errors. -/
inductive Stage (faulty : ε → Prop) (x : χ) : CallM χ κ ν ω ε ω → Prop
  | fresh : Stage faulty x (m.call x)
  | missed : Stage faulty x (m.onMiss x)
  | answered {y : ω} (h : m.answer x = .ok y) : Stage faulty x (m.onAnswer x y)
  | returned {y : ω} (h : m.answer x = .ok y) : Stage faulty x (Prog.pure y)
  | failed {e : ε} (h : m.answer x = .error e ∨ faulty e) : Stage faulty x (Prog.fail e)

theorem Stage.answer {m : Spec χ κ ν ω ε} {faulty : ε → Prop} {x : χ} {y : ω} (h : m.Stage faulty x (Prog.pure y)) :
    m.answer x = .ok y := by
  generalize hprog : (Prog.pure y : CallM χ κ ν ω ε ω) = prog at h
  cases h with
  | returned hy =>
    obtain rfl := Prog.pure.inj hprog
    exact hy
  | _ => cases hprog

theorem Stage.error {m : Spec χ κ ν ω ε} {faulty : ε → Prop} {x : χ} {e : ε} (h : m.Stage faulty x (Prog.fail e)) :
    m.answer x = .error e ∨ faulty e := by
  generalize hprog : (Prog.fail e : CallM χ κ ν ω ε ω) = prog at h
  cases h with
  | failed he =>
    obtain rfl := Prog.fail.inj hprog
    exact he
  | _ => cases hprog

def Truthful (inputs : χ → Prop) (table : List (κ × ν)) : Prop :=
  ∀ kv ∈ table, ∃ x, inputs x ∧ m.key x = kv.1 ∧ ∃ y, m.answer x = .ok y ∧ m.encode y = kv.2

/-- What a table relies on: answers survive their representation, and inputs of one key have one answer. -/
structure Lawful (inputs : χ → Prop) : Prop where
  decode_encode : ∀ x y, inputs x → m.answer x = .ok y → m.decode (m.encode y) = y
  agree : ∀ x x', inputs x → inputs x' → m.key x = m.key x' → m.answer x = m.answer x'
  puts : Puts m.put

variable {m} {inputs : χ → Prop} {faulty : ε → Prop}

theorem Truthful.put (hm : m.Lawful inputs) {table : List (κ × ν)} (h : m.Truthful inputs table) {x : χ} {y : ω}
    (hx : inputs x) (hy : m.answer x = .ok y) : m.Truthful inputs (m.put table (m.key x) (m.encode y)) := by
  intro kv hkv
  rcases hm.puts _ _ _ kv hkv with hold | rfl
  · exact h kv hold
  · exact ⟨x, hx, rfl, y, hy, rfl⟩

theorem Truthful.found [DecidableEq κ] (hm : m.Lawful inputs) {table : List (κ × ν)} (h : m.Truthful inputs table)
    {x : χ} (hx : inputs x) {v : ν} (hv : table.lookup (m.key x) = some v) : m.answer x = .ok (m.decode v) := by
  obtain ⟨x', hx', hkey, y, hy, hcode⟩ := h _ (mem_of_lookup hv)
  obtain rfl : m.encode y = v := hcode
  rw [hm.decode_encode x' y hx' hy, hm.agree x x' hx hx' hkey.symm, hy]

/-! ## One step -/

/-- The command of a call leaves it at a later stage and the table truthful; only a store changes the table, and it
is the last command. -/
theorem Stage.step [DecidableEq κ] (hm : m.Lawful inputs) {x : χ} (hx : inputs x) {c : Cmd χ κ ν}
    {k : Cmd.Res ω ε c → CallM χ κ ν ω ε ω} (h : m.Stage faulty x (Prog.cmd c k)) {s : State κ ν ε}
    (hs : m.Truthful inputs s.table) (hfates : ∀ e, s.fates 0 = .failed e → faulty e) :
    m.Stage faulty x (k (exec m c s).1) ∧ m.Truthful inputs (exec m c s).2.table ∧
      ((exec m c s).2.table = s.table ∨
        (∃ y, k (exec m c s).1 = Prog.pure y) ∧ ∃ k' v, (exec m c s).2.table = m.put s.table k' v) := by
  generalize hprog : (Prog.cmd c k : CallM χ κ ν ω ε ω) = prog at h
  cases h with
  | fresh =>
    cases hprog
    refine ⟨?_, hs, .inl rfl⟩
    simp only [exec]
    cases hfate : s.fates 0 with
    | done =>
      cases hfound : s.table.lookup (m.key x) with
      | none => exact .missed
      | some v => exact .returned (hs.found hm hx hfound)
    | blind => exact .missed
    | failed e => exact .failed (.inr (hfates e hfate))
  | missed =>
    cases hprog
    refine ⟨?_, hs, .inl rfl⟩
    -- a miss goes on to the answer, whether the table was read or not
    have hanswer : m.Stage faulty x ((Prog.ofExcept (m.answer x) : CallM χ κ ν ω ε ω).bind (m.onAnswer x)) := by
      cases hy : m.answer x with
      | ok y => exact .answered hy
      | error e => exact .failed (.inl hy)
    simp only [exec]
    cases hfate : s.fates 0 with
    | done => exact hanswer
    | blind => exact hanswer
    | failed e => exact .failed (.inr (hfates e hfate))
  | @answered y hy =>
    cases hprog
    simp only [exec]
    cases hfate : s.fates 0 with
    | done => exact ⟨.returned hy, hs.put hm hx hy, .inr ⟨⟨y, rfl⟩, _, _, rfl⟩⟩
    | blind => exact ⟨.returned hy, hs, .inl rfl⟩
    | failed e => exact ⟨.failed (.inr (hfates e hfate)), hs, .inl rfl⟩
  | returned hy => cases hprog
  | failed he => cases hprog

/-! ## Runs -/

abbrev Calls (χ κ ν ω ε : Type) := Pool χ (Cmd χ κ ν) (Cmd.Res ω ε) ε ω (State κ ν ε)

def calls (m : Spec χ κ ν ω ε) (fates : ℕ → Fate ε) (xs : List χ) : Calls χ κ ν ω ε :=
  Pool.start ⟨[], fates⟩ (xs.map fun x => (x, m.call x))

/-- Call `i`, on `x`, is over with this result. -/
def Ended (p : Calls χ κ ν ω ε) (i : ℕ) (x : χ) : Except ε ω → Prop
  | .ok y => p.tasks[i]? = some (x, Prog.pure y)
  | .error e => p.tasks[i]? = some (x, Prog.fail e)

structure Sound (m : Spec χ κ ν ω ε) (inputs : χ → Prop) (faulty : ε → Prop) (p : Calls χ κ ν ω ε) : Prop where
  table : m.Truthful inputs p.state.table
  fates : ∀ n e, p.state.fates n = .failed e → faulty e
  tasks : ∀ tp ∈ p.tasks, inputs tp.1 ∧ m.Stage faulty tp.1 tp.2

theorem sound_calls {fates : ℕ → Fate ε} (hfates : ∀ n e, fates n = .failed e → faulty e) {xs : List χ}
    (hxs : ∀ x ∈ xs, inputs x) : Sound m inputs faulty (m.calls fates xs) where
  fates := hfates
  table := fun _ hkv => absurd hkv List.not_mem_nil
  tasks := by
    intro tp htp
    obtain ⟨x, hx, rfl⟩ := List.mem_map.mp htp
    exact ⟨hxs x hx, .fresh⟩

section
variable [DecidableEq κ] {p : Calls χ κ ν ω ε}

theorem Sound.turn (hm : m.Lawful inputs) (h : Sound m inputs faulty p) (i : ℕ) :
    Sound m inputs faulty (p.turn (exec m) i) := by
  cases hn : p.next? i with
  | none =>
    rw [Pool.turn_none hn]
    exact h
  | some tc =>
    obtain ⟨k, htask, hturn⟩ := Pool.turn_some (x := exec m) hn
    obtain ⟨hx, hstage⟩ := h.tasks _ (List.mem_of_getElem? htask)
    obtain ⟨hstage', htable, -⟩ := hstage.step hm hx h.table (h.fates 0)
    rw [hturn]
    refine ⟨htable, fun n => ?_, fun tp htp => ?_⟩
    · rw [fates_exec]
      exact h.fates (n + 1)
    rcases List.mem_or_eq_of_mem_set htp with hother | rfl
    · exact h.tasks tp hother
    · exact ⟨hx, hstage'⟩

theorem Sound.play (hm : m.Lawful inputs) (h : Sound m inputs faulty p) (is : List ℕ) :
    Sound m inputs faulty (p.play (exec m) is) :=
  Pool.play_invariant (fun _ i _ _ hp _ => hp.turn hm i) h is

omit [DecidableEq κ] in
/-- A call that ended, ended as the memoised function does or on a fault. -/
theorem Sound.ended (h : Sound m inputs faulty p) {i : ℕ} {x : χ} {r : Except ε ω} (hi : Ended p i x r) :
    m.answer x = r ∨ ∃ e, r = .error e ∧ faulty e := by
  cases r with
  | ok y => exact .inl (h.tasks _ (List.mem_of_getElem? hi)).2.answer
  | error e => exact (h.tasks _ (List.mem_of_getElem? hi)).2.error.imp id fun he => ⟨e, rfl, he⟩

theorem Sound.turn_table (hm : m.Lawful inputs) (h : Sound m inputs faulty p) (i : ℕ) :
    (p.turn (exec m) i).state.table = p.state.table ∨
      (∃ x y, (p.turn (exec m) i).tasks[i]? = some (x, Prog.pure y)) ∧
        ∃ k v, (p.turn (exec m) i).state.table = m.put p.state.table k v := by
  cases hn : p.next? i with
  | none => exact .inl (by rw [Pool.turn_none hn])
  | some tc =>
    obtain ⟨k, htask, hturn⟩ := Pool.turn_some (x := exec m) hn
    obtain ⟨hx, hstage⟩ := h.tasks _ (List.mem_of_getElem? htask)
    obtain ⟨-, -, hchange⟩ := hstage.step hm hx h.table (h.fates 0)
    rw [hturn]
    refine hchange.imp id ?_
    rintro ⟨⟨y, hy⟩, hput⟩
    refine ⟨⟨tc.1, y, ?_⟩, hput⟩
    rw [List.getElem?_set_self (List.getElem?_eq_some_iff.mp htask).1, hy]

omit [DecidableEq κ] in
theorem returned_stays {x : Exec (Cmd χ κ ν) (Cmd.Res ω ε) (State κ ν ε)} {i : ℕ} {a : χ} {y : ω}
    (h : p.tasks[i]? = some (a, Prog.pure y)) (is : List ℕ) : (p.play x is).tasks[i]? = some (a, Prog.pure y) := by
  refine Pool.play_invariant (J := fun p => p.tasks[i]? = some (a, Prog.pure y)) ?_ h is
  intro p j t c hp hn
  obtain ⟨k, htask, hturn⟩ := Pool.turn_some (x := x) hn
  have hij : j ≠ i := by
    rintro rfl
    rw [hp] at htask
    cases htask
  rw [hturn, List.getElem?_set_ne hij]
  exact hp

theorem Sound.failed (hm : m.Lawful inputs) (h : Sound m inputs faulty p) {is js : List ℕ} {i : ℕ} {x : χ} {e : ε}
    (hend : Ended (p.play (exec m) (is ++ i :: js)) i x (.error e)) :
    ((p.play (exec m) is).turn (exec m) i).state.table = (p.play (exec m) is).state.table := by
  rcases (h.play hm is).turn_table hm i with hsame | ⟨⟨x', y, hreturned⟩, -⟩
  · exact hsame
  · have hrest : p.play (exec m) (is ++ i :: js) = ((p.play (exec m) is).turn (exec m) i).play (exec m) js := by
      rw [Pool.play_append]
      rfl
    rw [hrest] at hend
    have hstays := returned_stays (x := exec m) hreturned js
    cases hstays.symm.trans hend

theorem Sound.play_nodup (hm : m.Lawful inputs) (h : Sound m inputs faulty p)
    (hput : ∀ table k v, (table.map Prod.fst).Nodup → ((m.put table k v).map Prod.fst).Nodup)
    (hp : (p.state.table.map Prod.fst).Nodup) (is : List ℕ) :
    ((p.play (exec m) is).state.table.map Prod.fst).Nodup := by
  refine (Pool.play_invariant (J := fun p => Sound m inputs faulty p ∧ (p.state.table.map Prod.fst).Nodup) ?_ ⟨h, hp⟩ is).2
  intro p i _ _ ⟨hsound, hnodup⟩ _
  refine ⟨hsound.turn hm i, ?_⟩
  rcases hsound.turn_table hm i with hsame | ⟨-, k, v, hchanged⟩
  · rw [hsame]
    exact hnodup
  · rw [hchanged]
    exact hput _ k v hnodup

end
end Spec
end Memo
