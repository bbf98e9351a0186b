import CognitiveMemory.Lib.Euclidean
import CognitiveMemory.Daemon.Tick

/-! The two cosines: the one the search crate ranks by and the one the consolidation pass groups by. -/

namespace CognitiveMemory
open Euclidean InnerProductGeometry

theorem foldl_add_eq_sum {α : Type} (f : α → ℝ) (xs : List α) : xs.foldl (fun s x => s + f x) 0 = (xs.map f).sum := by
  rw [List.sum_eq_foldl, List.foldl_map]

theorem sqrt_eq (x : ℝ) : Elementary.sqrt x = √x := rfl

/-- The zero guards take no value away: a quotient by zero is zero. -/
theorem cosineSimilarity_eq_cos {a b : List ℝ} (h : a.length = b.length) :
    cosineSimilarity a b = Real.cos (angle (vector a.length a) (vector a.length b)) := by
  have hfst : (a.zip b).map (fun p => p.1 * p.1) = a.map fun x => x * x := by
    conv_rhs => rw [← List.map_fst_zip h.le, List.map_map]
    rfl
  have hsnd : (a.zip b).map (fun p => p.2 * p.2) = b.map fun y => y * y := by
    conv_rhs => rw [← List.map_snd_zip h.ge, List.map_map]
    rfl
  rw [cos_angle_vector h]
  simp only [cosineSimilarity, foldl_add_eq_sum, hfst, hsnd, sqrt_eq]
  split_ifs with hzero
  · have hprod : √((a.map fun x => x * x).sum) * √((b.map fun y => y * y).sum) = 0 := by
      rcases hzero with hzero | hzero <;> simp [hzero]
    rw [hprod, div_zero]
  · rfl

theorem cosineSimilarityF32_eq_cos {a b : List ℝ} (h : a.length = b.length) :
    cosineSimilarityF32 a b = Real.cos (angle (vector a.length a) (vector a.length b)) := by
  rw [cos_angle_vector h]
  simp only [cosineSimilarityF32, sqrt_eq]
  split_ifs with hzero
  · rw [mul_eq_zero.mpr hzero, div_zero]
  · rfl

theorem cosineSimilarity_comm {a b : List ℝ} (h : a.length = b.length) : cosineSimilarity a b = cosineSimilarity b a := by
  rw [cosineSimilarity_eq_cos h, cosineSimilarity_eq_cos h.symm, angle_comm, h]

theorem cosineSimilarity_scale {a b : List ℝ} (h : a.length = b.length) {c : ℝ} (hc : 0 < c) :
    cosineSimilarity (a.map (c * ·)) b = cosineSimilarity a b := by
  have hscaled : (a.map (c * ·)).length = b.length := by rw [List.length_map, h]
  rw [cosineSimilarity_eq_cos hscaled, cosineSimilarity_eq_cos h, List.length_map, vector_map_mul, angle_smul_left_of_pos _ _ hc]

/-- The two cosines are one function of vectors of equal length: symmetric, blind to positive factors, and in `[-1, 1]`. -/
theorem cosines_agree (a b : List ℝ) (h : a.length = b.length) :
    cosineSimilarity a b = cosineSimilarityF32 a b ∧
    cosineSimilarity b a = cosineSimilarity a b ∧
    (∀ c, 0 < c → cosineSimilarity (a.map (c * ·)) b = cosineSimilarity a b ∧
      cosineSimilarity a (b.map (c * ·)) = cosineSimilarity a b) ∧
    -1 ≤ cosineSimilarity a b ∧ cosineSimilarity a b ≤ 1 := by
  refine ⟨?_, (cosineSimilarity_comm h).symm, fun c hc => ⟨cosineSimilarity_scale h hc, ?_⟩, ?_, ?_⟩
  · rw [cosineSimilarity_eq_cos h, cosineSimilarityF32_eq_cos h]
  · have hscaled : a.length = (b.map (c * ·)).length := by rw [List.length_map, h]
    rw [cosineSimilarity_comm hscaled, cosineSimilarity_scale h.symm hc, cosineSimilarity_comm h]
  · rw [cosineSimilarity_eq_cos h]
    exact Real.neg_one_le_cos _
  · rw [cosineSimilarity_eq_cos h]
    exact Real.cos_le_one _

theorem cosines_agree_doubled :
    cosineSimilarity (([3, 4] : List ℝ).map (2 * ·)) [4, -3] = cosineSimilarityF32 [3, 4] [4, -3] :=
  ((cosines_agree [3, 4] [4, -3] rfl).2.2.1 2 two_pos).1.trans (cosines_agree [3, 4] [4, -3] rfl).1

end CognitiveMemory
