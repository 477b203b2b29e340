import Rgpot.Lib.Rounding

/-! Images of a vector under a lattice of row vectors, and nearest images. -/
namespace Lattice
open Matrix

variable {ι : Type} [Fintype ι] {K : Type} [Field K]

/-- The image `d - n H` of a vector under the integer combination `n` of rows. -/
def image (H : Matrix ι ι K) (d : ι → K) (n : ι → ℤ) : ι → K :=
  d - (fun i => (n i : K)) ᵥ* H

def normSq (v : ι → K) : K := v ⬝ᵥ v

/-- An integer vector that shifts only along the periodic axes. -/
def Supported (per : ι → Bool) (n : ι → ℤ) : Prop := ∀ i, per i = false → n i = 0

theorem image_zero (H : Matrix ι ι K) (d : ι → K) : image H d 0 = d := by
  have : (fun i : ι => (((0 : ι → ℤ) i : ℤ) : K)) = 0 := by ext; simp
  rw [image, this, Matrix.zero_vecMul, sub_zero]

theorem image_image (H : Matrix ι ι K) (d : ι → K) (m n : ι → ℤ) :
    image H (image H d m) n = image H d (m + n) := by
  have : (fun i => (((m + n) i : ℤ) : K)) = (fun i => (m i : K)) + fun i => (n i : K) := by
    ext; simp
  simp only [image, this, Matrix.add_vecMul]
  abel

theorem image_neg (H : Matrix ι ι K) (d : ι → K) (n : ι → ℤ) :
    image H (-d) (-n) = -image H d n := by
  have : (fun i => (((-n) i : ℤ) : K)) = -fun i => (n i : K) := by ext; simp
  simp only [image, this, Matrix.neg_vecMul]
  abel

theorem normSq_neg (v : ι → K) : normSq (-v) = normSq v := by
  simp [normSq]

omit [Fintype ι] in
theorem Supported.neg {per : ι → Bool} {n : ι → ℤ} (h : Supported per n) : Supported per (-n) :=
  fun i hi => by simp [h i hi]

omit [Fintype ι] in
theorem Supported.add {per : ι → Bool} {m n : ι → ℤ} (hm : Supported per m)
    (hn : Supported per n) : Supported per (m + n) :=
  fun i hi => by simp [hm i hi, hn i hi]

variable [LinearOrder K]

/-- `v` is an image of `d` that no other image is shorter than. -/
structure IsNearest (H : Matrix ι ι K) (per : ι → Bool) (d v : ι → K) : Prop where
  is_image : ∃ n, Supported per n ∧ v = image H d n
  le_image : ∀ n, Supported per n → normSq v ≤ normSq (image H d n)

namespace IsNearest
variable {H : Matrix ι ι K} {per : ι → Bool} {d v w : ι → K}

theorem normSq_eq (hv : IsNearest H per d v) (hw : IsNearest H per d w) :
    normSq v = normSq w := by
  obtain ⟨m, hm, rfl⟩ := hv.is_image
  obtain ⟨n, hn, rfl⟩ := hw.is_image
  exact le_antisymm (hv.le_image n hn) (hw.le_image m hm)

theorem neg (h : IsNearest H per d v) : IsNearest H per (-d) (-v) := by
  obtain ⟨n, hn, rfl⟩ := h.is_image
  refine ⟨⟨-n, hn.neg, (image_neg H d n).symm⟩, fun m hm => ?_⟩
  have he := h.le_image (-m) hm.neg
  have hi := image_neg H d (-m)
  rw [neg_neg] at hi
  rwa [normSq_neg, hi, normSq_neg]

/-- Nearest images do not see a shift of the vector by a lattice row combination. -/
theorem shift (h : IsNearest H per d v) {m : ι → ℤ} (hm : Supported per m) :
    IsNearest H per (image H d m) v := by
  obtain ⟨n, hn, hv⟩ := h.is_image
  refine ⟨⟨-m + n, hm.neg.add hn, ?_⟩, fun k hk => ?_⟩
  · rw [hv, image_image, add_neg_cancel_left]
  · rw [image_image]
    exact h.le_image _ (hm.add hk)

end IsNearest

section Basis

omit [LinearOrder K] in
theorem image_basis (M : Matrix ι ι ℤ) (H : Matrix ι ι K) (d : ι → K) (n : ι → ℤ) :
    image (M.map (Int.cast : ℤ → K) * H) d n = image H d (n ᵥ* M) := by
  have : (fun i => ((n ᵥ* M) i : K)) = (fun i => (n i : K)) ᵥ* M.map (Int.cast : ℤ → K) := by
    ext i
    simp [Matrix.vecMul, dotProduct]
  simp only [image, this, Matrix.vecMul_vecMul]

variable [DecidableEq ι]

/-- A unimodular change of basis leaves every nearest image as it is. -/
theorem IsNearest.of_basis {M : Matrix ι ι ℤ} (hM : IsUnit M.det) {H : Matrix ι ι K}
    {d v : ι → K} (h : IsNearest (M.map (Int.cast : ℤ → K) * H) (fun _ => true) d v) :
    IsNearest H (fun _ => true) d v := by
  obtain ⟨n, -, hv⟩ := h.is_image
  refine ⟨⟨n ᵥ* M, fun i hi => by simp at hi, by rw [hv, image_basis]⟩, fun k _ => ?_⟩
  have hk : image H d k = image (M.map (Int.cast : ℤ → K) * H) d (k ᵥ* M⁻¹) := by
    rw [image_basis, Matrix.vecMul_vecMul, Matrix.nonsing_inv_mul _ hM, Matrix.vecMul_one]
  rw [hk]
  exact h.le_image _ fun i hi => by simp at hi

end Basis

section Ordered
variable [IsStrictOrderedRing K]

theorem normSq_nonneg (v : ι → K) : 0 ≤ normSq v :=
  Finset.sum_nonneg fun i _ => mul_self_nonneg (v i)

theorem sq_le_normSq (v : ι → K) (i : ι) : v i * v i ≤ normSq v :=
  Finset.single_le_sum (f := fun i => v i * v i) (fun i _ => mul_self_nonneg (v i))
    (Finset.mem_univ i)

theorem abs_le_of_normSq_le {v : ι → K} {r : K} (hr : 0 ≤ r) (h : normSq v ≤ r * r) (i : ι) :
    |v i| ≤ r :=
  abs_le_of_sq_le_sq (by nlinarith [sq_le_normSq v i]) hr

theorem dotProduct_sq_le (v w : ι → K) : (v ⬝ᵥ w) * (v ⬝ᵥ w) ≤ normSq v * normSq w := by
  have h := Finset.sum_mul_sq_le_sq_mul_sq Finset.univ v w
  simpa only [normSq, dotProduct, sq] using h

/-- Cauchy-Schwarz with upper bounds for both norms. -/
theorem abs_dotProduct_le {v w : ι → K} {r s : K} (hr : 0 ≤ r) (hs : 0 ≤ s)
    (hv : normSq v ≤ r * r) (hw : normSq w ≤ s * s) : |v ⬝ᵥ w| ≤ r * s := by
  apply abs_le_of_sq_le_sq _ (mul_nonneg hr hs)
  have h := mul_le_mul hv hw (normSq_nonneg w) (mul_nonneg hr hr)
  calc (v ⬝ᵥ w) ^ 2 = (v ⬝ᵥ w) * (v ⬝ᵥ w) := sq _
    _ ≤ normSq v * normSq w := dotProduct_sq_le v w
    _ ≤ r * r * (s * s) := h
    _ = (r * s) ^ 2 := by ring

/-- The triangle inequality, with upper bounds for both lengths. -/
theorem normSq_add_le {v w : ι → K} {r s : K} (hr : 0 ≤ r) (hs : 0 ≤ s)
    (hv : normSq v ≤ r * r) (hw : normSq w ≤ s * s) :
    normSq (v + w) ≤ (r + s) * (r + s) := by
  have h := (abs_le.mp (abs_dotProduct_le hr hs hv hw)).2
  have he : normSq (v + w) = normSq v + 2 * (v ⬝ᵥ w) + normSq w := by
    simp only [normSq, add_dotProduct, dotProduct_add, dotProduct_comm w v]
    ring
  rw [he]
  linarith

/-- The strict form, when one length is strictly below its bound. -/
theorem normSq_add_lt {v w : ι → K} {r s : K} (hr : 0 ≤ r) (hs : 0 < s)
    (hv : normSq v < r * r) (hw : normSq w ≤ s * s) :
    normSq (v + w) < (r + s) * (r + s) := by
  have hdot : |v ⬝ᵥ w| < r * s := by
    apply abs_lt_of_sq_lt_sq _ (mul_nonneg hr hs.le)
    calc (v ⬝ᵥ w) ^ 2 = (v ⬝ᵥ w) * (v ⬝ᵥ w) := sq _
      _ ≤ normSq v * normSq w := dotProduct_sq_le v w
      _ ≤ normSq v * (s * s) := mul_le_mul_of_nonneg_left hw (normSq_nonneg v)
      _ < r * r * (s * s) := mul_lt_mul_of_pos_right hv (mul_pos hs hs)
      _ = (r * s) ^ 2 := by ring
  have h := (abs_lt.mp hdot).2
  have he : normSq (v + w) = normSq v + 2 * (v ⬝ᵥ w) + normSq w := by
    simp only [normSq, add_dotProduct, dotProduct_add, dotProduct_comm w v]
    ring
  rw [he]
  linarith

end Ordered

section Dual
variable [IsStrictOrderedRing K] [DecidableEq ι]

/-- Images no longer than `r` have indices within `r` times the dual norm of the
fractional coordinates. -/
theorem abs_frac_sub_le {H G : Matrix ι ι K} (hG : H * G = 1) {d : ι → K} {n : ι → ℤ} {k : ι}
    {r s : K} (hr : 0 ≤ r) (hs : 0 ≤ s) (hn : normSq (image H d n) ≤ r * r)
    (hk : normSq (fun i => G i k) ≤ s * s) : |(d ᵥ* G) k - n k| ≤ r * s := by
  have h : (d ᵥ* G) k - n k = image H d n ⬝ᵥ fun i => G i k := by
    have : (image H d n ᵥ* G) k = (d ᵥ* G) k - n k := by
      simp [image, Matrix.sub_vecMul, Matrix.vecMul_vecMul, hG]
    rw [← this]
    rfl
  rw [h]
  exact abs_dotProduct_le hr hs hn hk

end Dual

section Diagonal
variable [IsStrictOrderedRing K] [FloorRing K] [DecidableEq ι]
open Rounding

omit [LinearOrder K] [IsStrictOrderedRing K] [FloorRing K] in
theorem image_diagonal (w d : ι → K) (n : ι → ℤ) (i : ι) :
    image (Matrix.diagonal w) d n i = d i - w i * n i := by
  simp [image, Matrix.vecMul_diagonal, mul_comm]

/-- Rounding each coordinate on its own finds the nearest image of a diagonal cell. -/
theorem isNearest_foldAxis {w inv : ι → K} {per : ι → Bool}
    (hinv : ∀ i, inv i = if per i = true then 1 / w i else 0)
    (hw : ∀ i, per i = true → w i ≠ 0) (d : ι → K) :
    IsNearest (Matrix.diagonal w) per d (fun i => foldAxis (w i) (inv i) (d i)) := by
  have hval : ∀ i, per i = false → foldAxis (w i) (inv i) (d i) = d i := by
    intro i hi
    simp [hinv i, hi]
  refine ⟨⟨fun i => halfAway (d i * inv i), ?_, ?_⟩, ?_⟩
  · intro i hi
    simp [hinv i, hi, halfAway_zero]
  · ext i
    rw [image_diagonal, foldAxis]
  · intro n hn
    apply Finset.sum_le_sum
    intro i _
    rw [image_diagonal]
    rw [← abs_le_iff_mul_self_le]
    change |foldAxis (w i) (inv i) (d i)| ≤ |d i - w i * n i|
    cases hp : per i with
    | false => rw [hval i hp, hn i hp, Int.cast_zero, mul_zero, sub_zero]
    | true =>
      rw [hinv i, if_pos hp]
      exact abs_foldAxis_le_abs (hw i hp) (d i) (n i)

end Diagonal
end Lattice
