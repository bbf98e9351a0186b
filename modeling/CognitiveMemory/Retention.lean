import CognitiveMemory.Lifecycle

/-! How retention moves with time, strength and boosts, over the reals. -/

namespace CognitiveMemory

/-! ## Decay curves -/

structure DecayCurve (f : ℝ → ℝ) : Prop where
  start : f 0 = 1
  antitone : AntitoneOn f (Set.Ici 0)

namespace DecayCurve
variable {f : ℝ → ℝ}

theorem le_one (hf : DecayCurve f) {x : ℝ} (hx : 0 ≤ x) : f x ≤ 1 := by
  have hfall : f x ≤ f 0 := hf.antitone Set.self_mem_Ici hx hx
  rwa [hf.start] at hfall

theorem le_of_younger (hf : DecayCurve f) {age age' life life' : ℝ} (hage : 0 ≤ age') (hyounger : age' ≤ age)
    (hlife : 0 < life) (hlonger : life ≤ life') : f (age / life) ≤ f (age' / life') := by
  have hscaled : age' / life' ≤ age / life := by gcongr; exact hage.trans hyounger
  have hpos : 0 ≤ age' / life' := div_nonneg hage (hlife.le.trans hlonger)
  apply hf.antitone hpos (hpos.trans hscaled) hscaled

theorem exp_neg : DecayCurve fun x => Real.exp (-x) where
  start := by rw [neg_zero, Real.exp_zero]
  antitone := fun _ _ _ _ hxy => Real.exp_le_exp.mpr (neg_le_neg hxy)

theorem rpow_neg {gamma : ℝ} (hgamma : 0 ≤ gamma) : DecayCurve fun x => (1 + x) ^ (-gamma) where
  start := by rw [add_zero, Real.one_rpow]
  antitone := by
    intro x hx y _ hxy
    have hbase : (0 : ℝ) < 1 + x := by linarith [Set.mem_Ici.mp hx]
    apply Real.rpow_le_rpow_of_nonpos hbase (by linarith) (neg_nonpos.mpr hgamma)

end DecayCurve

/-! ## The formula as a curve -/

noncomputable def LifecycleConfig.curve (cfg : LifecycleConfig ℝ) : ℝ → ℝ :=
  match cfg.decayModel with
  | .exponential => fun x => Real.exp (-x)
  | .power => fun x => (1 + x) ^ (-cfg.powerDecayGamma)

theorem LifecycleConfig.curve_decays (cfg : LifecycleConfig ℝ) (hgamma : 0 ≤ cfg.powerDecayGamma) :
    DecayCurve cfg.curve := by
  unfold LifecycleConfig.curve
  cases cfg.decayModel with
  | exponential => exact DecayCurve.exp_neg
  | power => exact DecayCurve.rpow_neg hgamma

namespace MemoryState

/-- The ranges the store keeps its rows in. -/
structure Decays (m : MemoryState ℝ) : Prop where
  notStub : m.isStub = false
  stability : m.stability ∈ Set.Icc 0 1
  importance : m.importance ∈ Set.Icc 0 1
  floor : m.floor ∈ Set.Icc 0 1
  rate : ∀ beta ∈ m.baseDecayRate, 0 < beta

noncomputable def lifetime (m : MemoryState ℝ) (beta : ℝ) : ℝ :=
  max m.stability (1 / 100) * min (1 + m.importance * 2) 3 * beta

theorem lifetime_le {m m' : MemoryState ℝ} {beta beta' : ℝ} (himportance : 0 ≤ m.importance) (hbeta : 0 ≤ beta)
    (hstability : m.stability ≤ m'.stability) (hmore : m.importance ≤ m'.importance) (hrate : beta ≤ beta') :
    m.lifetime beta ≤ m'.lifetime beta' := by
  have hs : max m.stability (1 / 100) ≤ max m'.stability (1 / 100) := max_le_max hstability le_rfl
  have hb : min (1 + m.importance * 2) 3 ≤ min (1 + m'.importance * 2) 3 := min_le_min (by linarith) le_rfl
  have hspos : (0 : ℝ) ≤ max m.stability (1 / 100) := le_max_of_le_right (by norm_num)
  have hbpos : 0 ≤ min (1 + m.importance * 2) 3 := le_min (by linarith) (by norm_num)
  have hproduct := mul_le_mul hs hb hbpos (hspos.trans hs)
  exact mul_le_mul hproduct hrate hbeta (mul_nonneg (hspos.trans hs) (hbpos.trans hb))

theorem Decays.lifetime_pos {m : MemoryState ℝ} (hm : m.Decays) {beta : ℝ} (hbeta : 0 < beta) :
    0 < m.lifetime beta := by
  have hs : (0 : ℝ) < max m.stability (1 / 100) := lt_max_of_lt_right (by norm_num)
  have hb : 0 < min (1 + m.importance * 2) 3 := lt_min (by linarith [hm.importance.1]) (by norm_num)
  exact mul_pos (mul_pos hs hb) hbeta

end MemoryState

theorem computeRetention_infinite {m : MemoryState ℝ} (hm : m.Decays) (hrate : m.baseDecayRate = none) (now : Int)
    (cfg : LifecycleConfig ℝ) : computeRetention m now cfg = 1 := by
  unfold computeRetention
  rw [hrate, hm.notStub, if_neg Bool.false_ne_true]

theorem computeRetention_finite {m : MemoryState ℝ} (hm : m.Decays) {beta : ℝ} (hrate : m.baseDecayRate = some beta)
    (now : Int) (cfg : LifecycleConfig ℝ) : computeRetention m now cfg =
      max (cfg.curve (daysSince m.lastAccessedAt now / m.lifetime beta)) m.floor := by
  unfold computeRetention LifecycleConfig.curve MemoryState.lifetime
  rw [hrate, hm.notStub, if_neg Bool.false_ne_true]
  cases cfg.decayModel with
  | exponential => simp only [neg_div]; rfl
  | power => rfl

/-! ## Bounds and monotonicity -/

/-- `β_c` order, `f64::INFINITY` on top. -/
def RateLe : Option ℝ → Option ℝ → Prop
  | _, none => True
  | none, some _ => False
  | some beta, some beta' => beta ≤ beta'

section
variable {cfg : LifecycleConfig ℝ} {m m' : MemoryState ℝ}

theorem computeRetention_mem (hgamma : 0 ≤ cfg.powerDecayGamma) (hm : m.Decays) (now : Int) :
    computeRetention m now cfg ∈ Set.Icc m.floor 1 := by
  cases hrate : m.baseDecayRate with
  | none =>
    rw [computeRetention_infinite hm hrate]
    exact ⟨hm.floor.2, le_rfl⟩
  | some beta =>
    have hlife := hm.lifetime_pos (hm.rate beta hrate)
    have hraw : cfg.curve (daysSince m.lastAccessedAt now / m.lifetime beta) ≤ 1 :=
      (cfg.curve_decays hgamma).le_one (div_nonneg (daysSince_nonneg _ _) hlife.le)
    rw [computeRetention_finite hm hrate]
    exact ⟨le_max_right _ _, max_le hraw hm.floor.2⟩

theorem computeRetention_fresh (hgamma : 0 ≤ cfg.powerDecayGamma) (hm : m.Decays) {now : Int}
    (hnow : now ≤ m.lastAccessedAt) : computeRetention m now cfg = 1 := by
  cases hrate : m.baseDecayRate with
  | none => exact computeRetention_infinite hm hrate now cfg
  | some beta =>
    have hage : (daysSince m.lastAccessedAt now : ℝ) = 0 := by
      unfold daysSince
      rw [max_eq_right (by omega), Int.cast_zero, zero_div]
    rw [computeRetention_finite hm hrate, hage, zero_div, (cfg.curve_decays hgamma).start, max_eq_left hm.floor.2]

/-- A memory no weaker than `m` and touched no earlier is retained no less, and no less at an earlier time: the
one comparison behind every law below. -/
theorem computeRetention_le (hgamma : 0 ≤ cfg.powerDecayGamma) (hm : m.Decays) (hm' : m'.Decays) {now now' : Int}
    (hage : (daysSince m'.lastAccessedAt now' : ℝ) ≤ daysSince m.lastAccessedAt now)
    (hstability : m.stability ≤ m'.stability) (himportance : m.importance ≤ m'.importance)
    (hrates : RateLe m.baseDecayRate m'.baseDecayRate) (hfloor : m.floor ≤ m'.floor) :
    computeRetention m now cfg ≤ computeRetention m' now' cfg := by
  cases hrate' : m'.baseDecayRate with
  | none =>
    rw [computeRetention_infinite hm' hrate']
    exact (computeRetention_mem hgamma hm now).2
  | some beta' =>
    cases hrate : m.baseDecayRate with
    | none => rw [hrate, hrate'] at hrates; exact hrates.elim
    | some beta =>
      rw [hrate, hrate'] at hrates
      have hbeta : 0 < beta := hm.rate beta hrate
      have hlife : m.lifetime beta ≤ m'.lifetime beta' :=
        MemoryState.lifetime_le hm.importance.1 hbeta.le hstability himportance hrates
      have hraw := (cfg.curve_decays hgamma).le_of_younger (daysSince_nonneg _ _) hage (hm.lifetime_pos hbeta) hlife
      rw [computeRetention_finite hm hrate, computeRetention_finite hm' hrate']
      exact max_le_max hraw hfloor

theorem RateLe.refl : ∀ rate : Option ℝ, RateLe rate rate
  | none => True.intro
  | some _ => le_rfl

theorem computeRetention_antitone (hgamma : 0 ≤ cfg.powerDecayGamma) (hm : m.Decays) :
    Antitone fun now => computeRetention m now cfg := by
  intro now later hlater
  have hage : (daysSince m.lastAccessedAt now : ℝ) ≤ daysSince m.lastAccessedAt later := by
    unfold daysSince
    gcongr
  exact computeRetention_le hgamma hm hm hage le_rfl le_rfl (RateLe.refl _) le_rfl

/-! ## Boosts -/

theorem MemoryState.spacedRepFactor_nonneg (hcfg : cfg.Boosting) (m : MemoryState ℝ) (now : Int) :
    0 ≤ m.spacedRepFactor now cfg :=
  le_min hcfg.multiplier (div_nonneg (daysSince_nonneg _ _) hcfg.interval)

noncomputable def MemoryState.boostedBy (m : MemoryState ℝ) (gain : ℝ) (now : Int) : MemoryState ℝ :=
  { m with stability := min (m.stability + gain) 1, accessCount := m.accessCount + 1, lastAccessedAt := now }

theorem MemoryState.le_boostedBy (hm : m.Decays) {gain : ℝ} (hgain : 0 ≤ gain) (now : Int) :
    m.stability ≤ (m.boostedBy gain now).stability := le_min (by linarith) hm.stability.2

theorem MemoryState.Decays.boostedBy (hm : m.Decays) {gain : ℝ} (hgain : 0 ≤ gain) (now : Int) :
    (m.boostedBy gain now).Decays where
  notStub := hm.notStub
  stability := ⟨hm.stability.1.trans (le_boostedBy hm hgain now), min_le_right _ _⟩
  importance := hm.importance
  floor := hm.floor
  rate := hm.rate

theorem computeRetention_boosted (hgamma : 0 ≤ cfg.powerDecayGamma) (hm : m.Decays) {gain : ℝ} (hgain : 0 ≤ gain)
    {now : Int} (hnow : m.lastAccessedAt ≤ now) (later : Int) :
    computeRetention m later cfg ≤ computeRetention (m.boostedBy gain now) later cfg := by
  have hyounger : (daysSince (m.boostedBy gain now).lastAccessedAt later : ℝ) ≤ daysSince m.lastAccessedAt later :=
    daysSince_le_iff.mpr ((min_le_left _ _).trans hnow)
  have hstronger := MemoryState.le_boostedBy hm hgain now
  exact computeRetention_le hgamma hm (hm.boostedBy hgain now) hyounger hstronger le_rfl (RateLe.refl _) le_rfl

end

/-- Between its floor and one, whole at the last access, falling with time and rising with each of the four
strengths; and no boost made at or after the last access lowers it at any time from the boost on. -/
theorem retention_laws (cfg : LifecycleConfig ℝ) (hgamma : 0 < cfg.powerDecayGamma) (m : MemoryState ℝ)
    (hm : m.Decays) :
    (∀ now, computeRetention m now cfg ∈ Set.Icc m.floor 1) ∧
    (∀ now ≤ m.lastAccessedAt, computeRetention m now cfg = 1) ∧
    (Antitone fun now => computeRetention m now cfg) ∧
    (∀ m' : MemoryState ℝ, m'.Decays → m'.lastAccessedAt = m.lastAccessedAt → m.stability ≤ m'.stability →
      m.importance ≤ m'.importance → RateLe m.baseDecayRate m'.baseDecayRate → m.floor ≤ m'.floor →
      ∀ now, computeRetention m now cfg ≤ computeRetention m' now cfg) ∧
    (cfg.Boosting → ∀ now, m.lastAccessedAt ≤ now → ∀ later, now ≤ later →
      computeRetention m later cfg ≤ computeRetention (m.applyDirectBoost now cfg) later cfg ∧
      computeRetention m later cfg ≤ computeRetention (m.applyAssociativeBoost now cfg) later cfg) := by
  have hgamma' := hgamma.le
  refine ⟨computeRetention_mem hgamma' hm, fun now hnow => computeRetention_fresh hgamma' hm hnow,
    computeRetention_antitone hgamma' hm, ?_, ?_⟩
  · intro m' hm' hlast hstability himportance hrates hfloor now
    exact computeRetention_le hgamma' hm hm' (by rw [hlast]) hstability himportance hrates hfloor
  · intro hcfg now hnow later _
    have hfactor := m.spacedRepFactor_nonneg hcfg now
    exact ⟨computeRetention_boosted hgamma' hm (mul_nonneg hcfg.directBoost hfactor) hnow later,
      computeRetention_boosted hgamma' hm (mul_nonneg hcfg.associativeBoost hfactor) hnow later⟩

noncomputable def storedOnce : MemoryState ℝ where
  lastAccessedAt := 0
  createdAt := 0
  stability := 1 / 4
  importance := 1 / 2
  baseDecayRate := some 45
  floor := 1 / 50
  isStub := false
  accessCount := 0
  sessionCount := 0
  category := .episodic

theorem storedOnce_decays : storedOnce.Decays where
  notStub := rfl
  stability := by norm_num [storedOnce]
  importance := by norm_num [storedOnce]
  floor := by norm_num [storedOnce]
  rate := by norm_num [storedOnce]

/-- With the shipped settings, a direct boost after a day is still worth something after thirty. -/
theorem retention_laws_shipped :
    computeRetention storedOnce 86400 (buildLifecycleConfig []) ≤ 1 ∧
    computeRetention storedOnce (30 * 86400) (buildLifecycleConfig []) ≤
      computeRetention (storedOnce.applyDirectBoost 86400 (buildLifecycleConfig [])) (30 * 86400)
        (buildLifecycleConfig []) := by
  have hgamma : (0 : ℝ) < (buildLifecycleConfig [] : LifecycleConfig ℝ).powerDecayGamma := by
    norm_num [buildLifecycleConfig, paperFaithfulLifecycleConfig, LifecycleConfig.default]
  obtain ⟨hbounds, _, _, _, hboosts⟩ := retention_laws (buildLifecycleConfig []) hgamma storedOnce storedOnce_decays
  have hlast : storedOnce.lastAccessedAt ≤ 86400 := by norm_num [storedOnce]
  exact ⟨(hbounds 86400).2, (hboosts (buildLifecycleConfig_boosting []) 86400 hlast _ (by norm_num)).1⟩

end CognitiveMemory
