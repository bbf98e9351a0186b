import CognitiveMemory.Lib.Numerals
import Mathlib.Algebra.Order.Field.Rat
import Mathlib.Tactic.Linarith
import Mathlib.Tactic.NormNum
import Mathlib.Tactic.Positivity

/-! The token bucket every LLM client goes through. Rationals stand for `f64` and for the seconds
of an `Instant`; the tasks meet at the mutex, so a run is the list of their attempts in the
order in which they take it. -/

namespace CognitiveMemory

structure TokenBucketState where
  tokens : ℚ
  lastRefill : ℚ
  /-- A task panicked while it held the mutex. -/
  poisoned : Bool
  deriving DecidableEq, Repr

structure TokenBucket where
  capacity : ℚ
  refillPerSecond : ℚ
  deriving Repr

inductive Consumed
  | token
  | wait (seconds : ℚ)
  | panicked
  deriving DecidableEq, Repr

/-- `Duration::from_secs_f64`, which panics outside `u64` seconds. -/
def durationFromSecs (seconds : ℚ) : Option ℚ :=
  if 0 ≤ seconds ∧ seconds < 2 ^ 64 then some seconds else none

namespace TokenBucket

def new (b : TokenBucket) (now : ℚ) : TokenBucketState := ⟨b.capacity, now, false⟩

/-- Tokens after the refill at `now`; `duration_since` is zero for a later instant. -/
def refilled (b : TokenBucket) (now : ℚ) (s : TokenBucketState) : ℚ :=
  min (s.tokens + max (now - s.lastRefill) 0 * b.refillPerSecond) b.capacity

def tryConsumeOne (b : TokenBucket) (now : ℚ) (s : TokenBucketState) : Consumed × TokenBucketState :=
  -- `lock().ok()?`: behind a poisoned mutex every caller is let through.
  if s.poisoned then (.token, s) else
  let tokens := b.refilled now s
  if 1 ≤ tokens then (.token, ⟨tokens - 1, now, false⟩)
  else match durationFromSecs ((1 - tokens) / b.refillPerSecond) with
    | some seconds => (.wait seconds, ⟨tokens, now, false⟩)
    | none => (.panicked, ⟨tokens, now, true⟩)

end TokenBucket

/-- A task in its `acquire` loop, trying at an instant. -/
structure AcquireAttempt where
  task : ℕ
  now : ℚ
  deriving DecidableEq, Repr

namespace TokenBucket

def run (b : TokenBucket) : TokenBucketState → List AcquireAttempt → TokenBucketState
  | s, [] => s
  | s, a :: rest => b.run (b.tryConsumeOne a.now s).2 rest

def outcomes (b : TokenBucket) : TokenBucketState → List AcquireAttempt → List (AcquireAttempt × Consumed)
  | _, [] => []
  | s, a :: rest => (a, (b.tryConsumeOne a.now s).1) :: b.outcomes (b.tryConsumeOne a.now s).2 rest

/-- Acquisitions of a run at instants in `[start, stop]`. -/
def acquiredIn (b : TokenBucket) (s : TokenBucketState) (attempts : List AcquireAttempt) (start stop : ℚ) : ℕ :=
  (b.outcomes s attempts).countP fun o => o.2 = .token ∧ start ≤ o.1.now ∧ o.1.now ≤ stop

/-! ## One pass through the mutex -/

/-- Between attempts of a run in which none panicked. -/
structure Holds (b : TokenBucket) (s : TokenBucketState) : Prop where
  nonneg : 0 ≤ s.tokens
  le_capacity : s.tokens ≤ b.capacity
  sound : s.poisoned = false

/-- The clock does not run backwards, from `now` on. -/
def Ordered (now : ℚ) (attempts : List AcquireAttempt) : Prop :=
  (∀ a ∈ attempts, now ≤ a.now) ∧ attempts.Pairwise fun a a' => a.now ≤ a'.now

variable {b : TokenBucket} {s : TokenBucketState} {now : ℚ}

theorem new_holds (hcapacity : 0 ≤ b.capacity) (now : ℚ) : b.Holds (b.new now) := ⟨hcapacity, le_rfl, rfl⟩

theorem refilled_nonneg (hcapacity : 0 ≤ b.capacity) (hrate : 0 ≤ b.refillPerSecond) (hs : 0 ≤ s.tokens) (now : ℚ) :
    0 ≤ b.refilled now s := by
  have hgain : 0 ≤ max (now - s.lastRefill) 0 * b.refillPerSecond := mul_nonneg (le_max_right _ _) hrate
  exact le_min (add_nonneg hs hgain) hcapacity

theorem refilled_le (hnow : s.lastRefill ≤ now) :
    b.refilled now s ≤ s.tokens + b.refillPerSecond * (now - s.lastRefill) := by
  have helapsed : max (now - s.lastRefill) 0 = now - s.lastRefill := max_eq_left (sub_nonneg.mpr hnow)
  unfold refilled
  rw [helapsed, mul_comm (now - s.lastRefill)]
  exact min_le_left _ _

/-- A pass refills, takes one token or none, and stamps the state; only a wait no `Duration` can hold poisons it. -/
theorem tryConsumeOne_cases (b : TokenBucket) (now : ℚ) (hs : s.poisoned = false) :
    (1 ≤ b.refilled now s ∧ b.tryConsumeOne now s = (.token, ⟨b.refilled now s - 1, now, false⟩)) ∨
    (b.refilled now s < 1 ∧ ∃ seconds, durationFromSecs ((1 - b.refilled now s) / b.refillPerSecond) = some seconds ∧
      b.tryConsumeOne now s = (.wait seconds, ⟨b.refilled now s, now, false⟩)) ∨
    (b.refilled now s < 1 ∧ durationFromSecs ((1 - b.refilled now s) / b.refillPerSecond) = none ∧
      b.tryConsumeOne now s = (.panicked, ⟨b.refilled now s, now, true⟩)) := by
  unfold tryConsumeOne
  rw [hs, if_neg Bool.false_ne_true]
  by_cases htoken : 1 ≤ b.refilled now s
  · exact .inl ⟨htoken, if_pos htoken⟩
  · right
    have hshort : b.refilled now s < 1 := lt_of_not_ge htoken
    cases hwait : durationFromSecs ((1 - b.refilled now s) / b.refillPerSecond) with
    | some seconds => exact .inl ⟨hshort, seconds, rfl, by simp only [if_neg htoken, hwait]⟩
    | none => exact .inr ⟨hshort, rfl, by simp only [if_neg htoken, hwait]⟩

theorem tryConsumeOne_tokens (hcapacity : 0 ≤ b.capacity) (hrate : 0 ≤ b.refillPerSecond) (now : ℚ)
    (hs : s.tokens ∈ Set.Icc 0 b.capacity) : (b.tryConsumeOne now s).2.tokens ∈ Set.Icc 0 b.capacity := by
  have hfull : b.refilled now s ≤ b.capacity := min_le_right _ _
  have hnonneg := refilled_nonneg hcapacity hrate hs.1 now
  by_cases hpoisoned : s.poisoned = true
  · unfold tryConsumeOne
    rw [if_pos hpoisoned]
    exact hs
  · rcases tryConsumeOne_cases b now (Bool.eq_false_iff.mpr hpoisoned) with
      ⟨htoken, heq⟩ | ⟨-, _, -, heq⟩ | ⟨-, -, heq⟩ <;> rw [heq]
    · exact ⟨sub_nonneg.mpr htoken, (sub_le_self _ zero_le_one).trans hfull⟩
    · exact ⟨hnonneg, hfull⟩
    · exact ⟨hnonneg, hfull⟩

theorem tryConsumeOne_holds (hcapacity : 0 ≤ b.capacity) (hrate : 0 ≤ b.refillPerSecond) (hs : b.Holds s)
    (hpass : (b.tryConsumeOne now s).1 ≠ .panicked) :
    b.Holds (b.tryConsumeOne now s).2 ∧ (b.tryConsumeOne now s).2.lastRefill = now ∧
      (b.tryConsumeOne now s).2.tokens + (if (b.tryConsumeOne now s).1 = .token then 1 else 0) = b.refilled now s := by
  have htokens := tryConsumeOne_tokens hcapacity hrate now ⟨hs.nonneg, hs.le_capacity⟩
  rcases tryConsumeOne_cases b now hs.sound with ⟨-, heq⟩ | ⟨-, _, -, heq⟩ | ⟨-, -, heq⟩ <;>
    rw [heq] at hpass htokens ⊢
  · exact ⟨⟨htokens.1, htokens.2, rfl⟩, rfl, by rw [if_pos rfl]; exact sub_add_cancel _ _⟩
  · exact ⟨⟨htokens.1, htokens.2, rfl⟩, rfl, add_zero _⟩
  · exact absurd rfl hpass

/-! ## Runs -/

theorem run_tokens (hcapacity : 0 ≤ b.capacity) (hrate : 0 ≤ b.refillPerSecond) (attempts : List AcquireAttempt)
    (hs : s.tokens ∈ Set.Icc 0 b.capacity) : (b.run s attempts).tokens ∈ Set.Icc 0 b.capacity := by
  induction attempts generalizing s with
  | nil => exact hs
  | cons a rest ih => exact ih (tryConsumeOne_tokens hcapacity hrate a.now hs)

theorem acquiredIn_cons (a : AcquireAttempt) (rest : List AcquireAttempt) (start stop : ℚ) :
    (b.acquiredIn s (a :: rest) start stop : ℚ) =
      b.acquiredIn (b.tryConsumeOne a.now s).2 rest start stop +
        if (b.tryConsumeOne a.now s).1 = .token ∧ start ≤ a.now ∧ a.now ≤ stop then 1 else 0 := by
  unfold acquiredIn
  rw [outcomes, List.countP_cons]
  push_cast
  simp only [decide_eq_true_eq]

theorem acquiredIn_cons_le (b : TokenBucket) (s : TokenBucketState) (a : AcquireAttempt) (rest : List AcquireAttempt)
    (start stop : ℚ) : (b.acquiredIn s (a :: rest) start stop : ℚ) ≤
      b.acquiredIn (b.tryConsumeOne a.now s).2 rest start stop +
        if (b.tryConsumeOne a.now s).1 = .token then 1 else 0 := by
  rw [acquiredIn_cons]
  gcongr
  split_ifs with hcounted htoken
  · exact le_rfl
  · exact absurd hcounted.1 htoken
  · exact zero_le_one
  · exact le_rfl

theorem acquiredIn_of_late {attempts : List AcquireAttempt} {start stop : ℚ} (hlate : ∀ a ∈ attempts, stop < a.now) :
    b.acquiredIn s attempts start stop = 0 := by
  induction attempts generalizing s with
  | nil => rfl
  | cons a rest ih =>
    have hrest := ih (s := (b.tryConsumeOne a.now s).2) fun a' ha' => hlate a' (List.mem_cons_of_mem _ ha')
    have ha : ¬ a.now ≤ stop := not_le.mpr (hlate a List.mem_cons_self)
    unfold acquiredIn at hrest ⊢
    rw [outcomes, List.countP_cons, hrest, if_neg (by simp [ha])]

section
variable {attempts : List AcquireAttempt}

theorem Ordered.tail {a : AcquireAttempt} (h : Ordered now (a :: attempts)) : Ordered a.now attempts :=
  ⟨(List.pairwise_cons.mp h.2).1, (List.pairwise_cons.mp h.2).2⟩

theorem Ordered.late {stop : ℚ} (h : Ordered now attempts) (hstop : stop < now) : ∀ a ∈ attempts, stop < a.now :=
  fun a ha => hstop.trans_le (h.1 a ha)

/-- The potential: what a run hands out up to `stop` was in the bucket or has been refilled since. -/
theorem acquiredIn_le_tokens (hcapacity : 0 ≤ b.capacity) (hrate : 0 ≤ b.refillPerSecond) (start : ℚ) {stop : ℚ}
    (hs : b.Holds s) (hclock : Ordered s.lastRefill attempts) (hstop : s.lastRefill ≤ stop)
    (hwaits : ∀ o ∈ b.outcomes s attempts, o.2 ≠ .panicked) :
    (b.acquiredIn s attempts start stop : ℚ) ≤ s.tokens + b.refillPerSecond * (stop - s.lastRefill) := by
  induction attempts generalizing s with
  | nil => exact add_nonneg hs.nonneg (mul_nonneg hrate (sub_nonneg.mpr hstop))
  | cons a rest ih =>
    have hnow : s.lastRefill ≤ a.now := hclock.1 a List.mem_cons_self
    by_cases ha : a.now ≤ stop
    · obtain ⟨hholds, hlast, hspent⟩ := tryConsumeOne_holds hcapacity hrate hs (hwaits _ List.mem_cons_self)
      have hclock' : Ordered (b.tryConsumeOne a.now s).2.lastRefill rest := by rw [hlast]; exact hclock.tail
      have hrest := ih hholds hclock' (by rw [hlast]; exact ha) fun o ho => hwaits o (List.mem_cons_of_mem _ ho)
      have hrefill : b.refilled a.now s ≤ s.tokens + b.refillPerSecond * (a.now - s.lastRefill) := refilled_le hnow
      have hcounted := b.acquiredIn_cons_le s a rest start stop
      rw [hlast] at hrest
      linarith
    · have hnone : b.acquiredIn s (a :: rest) start stop = 0 := by
        apply acquiredIn_of_late
        intro a' ha'
        rcases List.mem_cons.mp ha' with rfl | ha'
        · exact lt_of_not_ge ha
        · exact hclock.tail.late (lt_of_not_ge ha) a' ha'
      rw [hnone, Nat.cast_zero]
      exact add_nonneg hs.nonneg (mul_nonneg hrate (sub_nonneg.mpr hstop))

/-- Up to the first attempt in the window nothing counts, and that one finds at most a full bucket. -/
theorem acquiredIn_le (hcapacity : 0 ≤ b.capacity) (hrate : 0 ≤ b.refillPerSecond) {start stop : ℚ} (hlen : start ≤ stop)
    (hs : b.Holds s) (hclock : Ordered s.lastRefill attempts)
    (hwaits : ∀ o ∈ b.outcomes s attempts, o.2 ≠ .panicked) :
    (b.acquiredIn s attempts start stop : ℚ) ≤ b.capacity + b.refillPerSecond * (stop - start) := by
  induction attempts generalizing s with
  | nil => exact add_nonneg hcapacity (mul_nonneg hrate (sub_nonneg.mpr hlen))
  | cons a rest ih =>
    obtain ⟨hholds, hlast, hspent⟩ := tryConsumeOne_holds hcapacity hrate hs (hwaits _ List.mem_cons_self)
    have hwaits' : ∀ o ∈ b.outcomes (b.tryConsumeOne a.now s).2 rest, o.2 ≠ .panicked :=
      fun o ho => hwaits o (List.mem_cons_of_mem _ ho)
    have hclock' : Ordered (b.tryConsumeOne a.now s).2.lastRefill rest := by rw [hlast]; exact hclock.tail
    by_cases hin : start ≤ a.now ∧ a.now ≤ stop
    · have hrest := acquiredIn_le_tokens hcapacity hrate start hholds hclock' (hlast.le.trans hin.2) hwaits'
      have hfull : b.refilled a.now s ≤ b.capacity := min_le_right _ _
      have hshorter : b.refillPerSecond * (stop - a.now) ≤ b.refillPerSecond * (stop - start) :=
        mul_le_mul_of_nonneg_left (by linarith [hin.1]) hrate
      have hcounted := b.acquiredIn_cons_le s a rest start stop
      rw [hlast] at hrest
      linarith
    · rw [acquiredIn_cons, if_neg (fun h => hin h.2), add_zero]
      exact ih hholds hclock' hwaits'

end

/-! ## Waits -/

/-- No attempt panics when the wait for a whole token fits a `Duration`. -/
theorem waits_of_rate (hcapacity : 0 ≤ b.capacity) (hrate : 0 < b.refillPerSecond) (hfits : 1 / b.refillPerSecond < 2 ^ 64)
    {attempts : List AcquireAttempt} (hs : b.Holds s) : ∀ o ∈ b.outcomes s attempts, o.2 ≠ .panicked := by
  induction attempts generalizing s with
  | nil => exact fun _ ho => absurd ho List.not_mem_nil
  | cons a rest ih =>
    have hpass : (b.tryConsumeOne a.now s).1 ≠ .panicked := by
      rcases tryConsumeOne_cases b a.now hs.sound with ⟨-, heq⟩ | ⟨-, _, -, heq⟩ | ⟨hshort, hlong, -⟩
      · rw [heq]; exact nofun
      · rw [heq]; exact nofun
      · have hneeded : 1 - b.refilled a.now s ≤ 1 := by linarith [refilled_nonneg hcapacity hrate.le hs.nonneg a.now]
        have hwait : (1 - b.refilled a.now s) / b.refillPerSecond ≤ 1 / b.refillPerSecond :=
          div_le_div_of_nonneg_right hneeded hrate.le
        have hpos : 0 ≤ (1 - b.refilled a.now s) / b.refillPerSecond := div_nonneg (by linarith) hrate.le
        unfold durationFromSecs at hlong
        rw [if_pos ⟨hpos, hwait.trans_lt hfits⟩] at hlong
        exact absurd hlong nofun
    intro o ho
    rcases List.mem_cons.mp ho with rfl | ho
    · exact hpass
    · exact ih (tryConsumeOne_holds hcapacity hrate.le hs hpass).1 o ho

/-- A task that sleeps as long as it was told and that nobody overtakes gets its token. -/
theorem token_after_wait (hroom : 1 ≤ b.capacity) (hrate : 0 < b.refillPerSecond) (hs : s.poisoned = false)
    {seconds : ℚ} (hwait : (b.tryConsumeOne now s).1 = .wait seconds) {later : ℚ} (hlater : now + seconds ≤ later) :
    (b.tryConsumeOne later (b.tryConsumeOne now s).2).1 = .token := by
  rcases tryConsumeOne_cases b now hs with ⟨-, heq⟩ | ⟨hshort, wait, hduration, heq⟩ | ⟨-, -, heq⟩ <;>
    rw [heq] at hwait
  · exact absurd hwait nofun
  · obtain rfl : wait = seconds := Consumed.wait.inj hwait
    obtain ⟨-, rfl⟩ : _ ∧ (1 - b.refilled now s) / b.refillPerSecond = wait := by
      unfold durationFromSecs at hduration
      split at hduration
      · exact ⟨‹_›, Option.some.inj hduration⟩
      · exact absurd hduration nofun
    have hgain : 1 - b.refilled now s ≤ max (later - now) 0 * b.refillPerSecond := by
      rw [← div_le_iff₀ hrate]
      exact le_max_of_le_left (by linarith)
    have hfull : 1 ≤ b.refilled later ⟨b.refilled now s, now, false⟩ := le_min (by linarith) hroom
    rcases tryConsumeOne_cases b later (s := ⟨b.refilled now s, now, false⟩) rfl with
      ⟨-, hgot⟩ | ⟨hless, -⟩ | ⟨hless, -⟩
    · rw [heq, hgot]
    · exact absurd hfull (not_le.mpr hless)
    · exact absurd hfull (not_le.mpr hless)
  · exact absurd hwait nofun

/-- Whatever the tasks do, the bucket holds between nothing and its capacity, and no window of length `len` sees more
acquisitions than a full bucket and its refill. -/
theorem rate_bound (b : TokenBucket) (hcapacity : 0 ≤ b.capacity) (hrate : 0 < b.refillPerSecond) (created : ℚ)
    (attempts : List AcquireAttempt) (hclock : Ordered created attempts)
    (hwaits : ∀ o ∈ b.outcomes (b.new created) attempts, o.2 ≠ .panicked) :
    (∀ done rest, attempts = done ++ rest → (b.run (b.new created) done).tokens ∈ Set.Icc 0 b.capacity) ∧
    ∀ start len : ℚ, 0 ≤ len →
      (b.acquiredIn (b.new created) attempts start (start + len) : ℚ) ≤ b.capacity + b.refillPerSecond * len := by
  have hnew := new_holds hcapacity created
  constructor
  · intro done _ _
    exact run_tokens hcapacity hrate.le done ⟨hnew.nonneg, hnew.le_capacity⟩
  · intro start len hlen
    have hstop : start ≤ start + len := le_add_of_nonneg_right hlen
    have hbound := acquiredIn_le hcapacity hrate.le hstop hnew hclock hwaits
    rwa [add_sub_cancel_left] at hbound

/-- Three tasks at a bucket of two that refills once a second. -/
theorem rate_bound_three :
    (TokenBucket.acquiredIn ⟨2, 1⟩ (TokenBucket.new ⟨2, 1⟩ 0) [⟨0, 0⟩, ⟨1, 0⟩, ⟨2, 0⟩, ⟨2, 1⟩] 0 (0 + 1) : ℚ) ≤ 2 + 1 * 1 := by
  have hclock : Ordered 0 [⟨0, 0⟩, ⟨1, 0⟩, ⟨2, 0⟩, ⟨2, 1⟩] := by constructor <;> simp
  have hwaits : ∀ o ∈ TokenBucket.outcomes ⟨2, 1⟩ (TokenBucket.new ⟨2, 1⟩ 0) [⟨0, 0⟩, ⟨1, 0⟩, ⟨2, 0⟩, ⟨2, 1⟩],
      o.2 ≠ .panicked :=
    waits_of_rate (by norm_num) (by norm_num) (by norm_num) (new_holds (by norm_num) 0)
  exact (rate_bound ⟨2, 1⟩ (by norm_num) (by norm_num) 0 _ hclock hwaits).2 0 1 zero_le_one

end TokenBucket

end CognitiveMemory
