import CognitiveMemory.Lib.Numerals
import Mathlib.Algebra.Order.Field.Basic
import Mathlib.Analysis.SpecialFunctions.Pow.Real
import Mathlib.Tactic.Positivity

/-! The lifecycle crate: retention, association decay, initial stability. Reals stand for
`f64`; every definition is over an ordered field with the three functions `f64` offers. -/

/-- `f64::exp`, `f64::powf` and `f64::sqrt`. -/
class Elementary (F : Type) where
  exp : F → F
  powf : F → F → F
  sqrt : F → F

noncomputable instance : Elementary ℝ := ⟨Real.exp, (· ^ ·), Real.sqrt⟩

/-- Exact on the points where the three functions are trivially rational, and `0` elsewhere;
used only to evaluate the model at such points. -/
instance : Elementary ℚ where
  exp x := if x = 0 then 1 else 0
  powf x a := if x = 1 ∨ a = 0 then 1 else if a = 1 then x else 0
  sqrt x := if x = 1 then 1 else 0

namespace CognitiveMemory

inductive DecayModel
  | exponential
  | power
  deriving DecidableEq, Repr

inductive Category
  | episodic
  | semantic
  | procedural
  | core
  deriving DecidableEq, Repr

def parseCategory (s : String) : Category :=
  if s = "episodic" then .episodic
  else if s = "semantic" then .semantic
  else if s = "procedural" then .procedural
  else if s = "core" then .core
  else .semantic

/-- `u64 as i64`. -/
def castI64 (n : ℕ) : Int := (n : Int).bmod (2 ^ 64)

structure LifecycleConfig (F : Type) where
  decayModel : DecayModel
  retrievalScoreExponent : F
  powerDecayGamma : F
  directBoost : F
  associativeBoost : F
  spacedRepIntervalDays : F
  maxSpacedRepMultiplier : F
  coreAccessThreshold : ℕ
  coreStabilityThreshold : F
  coreSessionThreshold : ℕ
  associationDecayConstantDays : F
  /-- β_c in days; `none` is `f64::INFINITY`. -/
  baseDecayRates : List (String × Option F)

structure MemoryState (F : Type) where
  lastAccessedAt : Int
  createdAt : Int
  stability : F
  importance : F
  baseDecayRate : Option F
  floor : F
  isStub : Bool
  accessCount : ℕ
  sessionCount : ℕ
  category : Category

variable {F : Type} [Field F] [LinearOrder F]

def LifecycleConfig.default : LifecycleConfig F where
  decayModel := .exponential
  retrievalScoreExponent := 3 / 10
  powerDecayGamma := 7 / 10
  directBoost := 1 / 10
  associativeBoost := 5 / 100
  spacedRepIntervalDays := 7
  maxSpacedRepMultiplier := 2
  coreAccessThreshold := 10
  coreStabilityThreshold := 85 / 100
  coreSessionThreshold := 2
  associationDecayConstantDays := 90
  baseDecayRates := [("episodic", some 45), ("semantic", some 240), ("core", some 120), ("procedural", none)]

def paperFaithfulLifecycleConfig : LifecycleConfig F := { LifecycleConfig.default with decayModel := .power }

/-- `build_lifecycle_config`: config.toml can replace base decay rates and nothing else. -/
def buildLifecycleConfig (rates : List (String × Option F)) : LifecycleConfig F :=
  { paperFaithfulLifecycleConfig with baseDecayRates := rates ++ paperFaithfulLifecycleConfig.baseDecayRates }

def LifecycleConfig.betaFor (cfg : LifecycleConfig F) (category : String) : Option F :=
  (cfg.baseDecayRates.lookup category).getD (some 120)

/-- Days between two unix times, clock skew clamped to 0. -/
def daysSince (last now : Int) : F := ((max (now - last) 0 : Int) : F) / 86400

theorem daysSince_nonneg [IsStrictOrderedRing F] (last now : Int) : (0 : F) ≤ daysSince last now := by
  unfold daysSince
  have hclamped : (0 : F) ≤ ((max (now - last) 0 : Int) : F) := by exact_mod_cast le_max_right _ _
  positivity

theorem daysSince_le_iff [IsStrictOrderedRing F] {last last' now : Int} :
    (daysSince last now : F) ≤ daysSince last' now ↔ min last' now ≤ last := by
  unfold daysSince
  rw [div_le_div_iff_of_pos_right (by norm_num), Int.cast_le]
  omega

def stabilityFromImportance (importance : F) : F := 1 / 10 + 3 / 10 * importance

def spacedRepFactor (cfg : LifecycleConfig F) (last now : Int) : F :=
  min (daysSince last now / cfg.spacedRepIntervalDays) cfg.maxSpacedRepMultiplier

/-- Bumps that add: those of every configuration the daemon builds do. -/
structure LifecycleConfig.Boosting (cfg : LifecycleConfig F) : Prop where
  directBoost : 0 ≤ cfg.directBoost
  associativeBoost : 0 ≤ cfg.associativeBoost
  interval : 0 ≤ cfg.spacedRepIntervalDays
  multiplier : 0 ≤ cfg.maxSpacedRepMultiplier

theorem buildLifecycleConfig_boosting [IsStrictOrderedRing F] (rates : List (String × Option F)) :
    (buildLifecycleConfig rates).Boosting := by
  constructor <;> simp only [buildLifecycleConfig, paperFaithfulLifecycleConfig, LifecycleConfig.default] <;> positivity

theorem spacedRepFactor_nonneg [IsStrictOrderedRing F] {cfg : LifecycleConfig F} (h : cfg.Boosting) (last now : Int) :
    0 ≤ spacedRepFactor cfg last now := by
  exact le_min (div_nonneg (daysSince_nonneg last now) h.interval) h.multiplier

/-! ## Boosts and promotion -/

namespace MemoryState

def spacedRepFactor (m : MemoryState F) (now : Int) (cfg : LifecycleConfig F) : F :=
  min cfg.maxSpacedRepMultiplier (daysSince m.lastAccessedAt now / cfg.spacedRepIntervalDays)

def applyDirectBoost (m : MemoryState F) (now : Int) (cfg : LifecycleConfig F) : MemoryState F :=
  { m with
    stability := min (m.stability + cfg.directBoost * m.spacedRepFactor now cfg) 1
    accessCount := m.accessCount + 1
    lastAccessedAt := now }

def applyAssociativeBoost (m : MemoryState F) (now : Int) (cfg : LifecycleConfig F) : MemoryState F :=
  { m with
    stability := min (m.stability + cfg.associativeBoost * m.spacedRepFactor now cfg) 1
    accessCount := m.accessCount + 1
    lastAccessedAt := now }

def checkCorePromotion (m : MemoryState F) (cfg : LifecycleConfig F) : Bool × MemoryState F :=
  if m.category = .core then (false, m)
  else if cfg.coreAccessThreshold ≤ m.accessCount ∧ cfg.coreStabilityThreshold ≤ m.stability ∧
      cfg.coreSessionThreshold ≤ m.sessionCount then (true, { m with category := .core })
  else (false, m)

end MemoryState

/-! ## Decay -/

section
variable [Elementary F]

def decayAssociationWeight (storedWeight : F) (lastCoRetrieval now : Int) (tauDays : F) : F :=
  storedWeight * Elementary.exp (-(daysSince lastCoRetrieval now : F) / tauDays)

def computeRetention (m : MemoryState F) (now : Int) (cfg : LifecycleConfig F) : F :=
  if m.isStub then 0 else
  match m.baseDecayRate with
  | none => 1
  | some beta =>
    let dtDays := daysSince m.lastAccessedAt now
    let s := max m.stability (1 / 100)
    let b := min (1 + m.importance * 2) 3
    let effectiveRate := s * b * beta
    let raw := match cfg.decayModel with
      | .exponential => Elementary.exp (-dtDays / effectiveRate)
      | .power => Elementary.powf (1 + dtDays / effectiveRate) (-cfg.powerDecayGamma)
    max raw m.floor

end
end CognitiveMemory
