import CognitiveMemory.Lib.Numerals
import Mathlib.Geometry.Euclidean.Angle.Unoriented.Basic
import Mathlib.Analysis.InnerProductSpace.PiL2

/-! Lists of reals as vectors of Euclidean space: sums over their entries are its inner products and norms. -/

namespace Euclidean
open InnerProductGeometry

noncomputable def vector (n : ℕ) (a : List ℝ) : EuclideanSpace ℝ (Fin n) := WithLp.toLp 2 fun i => a.getD i 0

@[simp]
theorem vector_apply (n : ℕ) (a : List ℝ) (i : Fin n) : vector n a i = a.getD i 0 := rfl

theorem inner_vector (a b : List ℝ) : inner ℝ (vector a.length a)
    (vector a.length b) = ((a.zip b).map fun p => p.1 * p.2).sum := by
  have hsum : ∀ a b : List ℝ, ∑ i : Fin a.length, a.getD i 0 * b.getD i 0 = ((a.zip b).map fun p => p.1 * p.2).sum := by
    intro a
    induction a with
    | nil => simp
    | cons x a ih =>
      intro b
      cases b with
      | nil => simp
      | cons y b => simpa [Fin.sum_univ_succ] using ih b
  rw [← hsum, PiLp.inner_apply]
  exact Finset.sum_congr rfl fun i _ => mul_comm _ _

theorem norm_vector (a : List ℝ) : ‖vector a.length a‖ = √((a.map fun x => x * x).sum) := by
  have hself : a.zip a = a.map fun x => (x, x) := by
    rw [List.zip_eq_zipWith, List.zipWith_self]
  rw [norm_eq_sqrt_real_inner, inner_vector, hself, List.map_map]
  rfl

theorem vector_map_mul (n : ℕ) (c : ℝ) (a : List ℝ) : vector n (a.map (c * ·)) = c • vector n a := by
  ext i
  show (a.map (c * ·)).getD i 0 = c * a.getD i 0
  cases h : a[(i : ℕ)]? with
  | none => simp [h]
  | some x => simp [h]

theorem cos_angle_vector {a b : List ℝ} (h : a.length = b.length) :
    Real.cos (angle (vector a.length a) (vector a.length b)) =
      ((a.zip b).map fun p => p.1 * p.2).sum / (√((a.map fun x => x * x).sum) * √((b.map fun y => y * y).sum)) := by
  have hb : ‖vector a.length b‖ = √((b.map fun y => y * y).sum) := by
    rw [h, norm_vector]
  rw [cos_angle, inner_vector, norm_vector, hb]

end Euclidean
