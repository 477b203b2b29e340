import Rgpot.Lib.Numerals

/-! Rounding half away from zero, and the fold of a coordinate into one period. -/
namespace Rounding

variable {K : Type} [Field K] [LinearOrder K] [FloorRing K]

/-- Truncation toward zero. -/
def trunc (t : K) : ℤ := if 0 ≤ t then ⌊t⌋ else ⌈t⌉

/-- Round to nearest, half-integers away from zero. -/
def halfAway (t : K) : ℤ := trunc (t + if 0 ≤ t then 1 / 2 else -(1 / 2))

/-- Subtract the multiple of `w` nearest to `d`; `inv = 0` switches the fold off. -/
def foldAxis (w inv d : K) : K := d - w * (halfAway (d * inv) : K)

omit [LinearOrder K] [FloorRing K] in
theorem sub_mul_eq_mul_sub {w : K} (hw : w ≠ 0) (d : K) (m : ℤ) :
    d - w * m = w * (d * (1 / w) - m) := by
  field_simp

variable [IsStrictOrderedRing K]

theorem halfAway_of_nonneg {t : K} (h : 0 ≤ t) : halfAway t = ⌊t + 1 / 2⌋ := by
  have h2 : 0 ≤ t + 1 / 2 := by positivity
  rw [halfAway, if_pos h, trunc, if_pos h2]

theorem halfAway_of_neg {t : K} (h : t < 0) : halfAway t = ⌈t - 1 / 2⌉ := by
  have h1 : ¬ 0 ≤ t := not_le.mpr h
  have h2 : ¬ 0 ≤ t + -(1 / 2) := by
    have : (0 : K) < 1 / 2 := by norm_num
    linarith
  rw [halfAway, if_neg h1, trunc, if_neg h2, sub_eq_add_neg]

theorem abs_sub_halfAway_le (t : K) : |t - halfAway t| ≤ 1 / 2 := by
  rcases le_or_gt 0 t with h | h
  · rw [halfAway_of_nonneg h, abs_le]
    have h1 := Int.floor_le (t + 1 / 2)
    have h2 := Int.lt_floor_add_one (t + 1 / 2)
    constructor <;> linarith
  · rw [halfAway_of_neg h, abs_le]
    have h1 := Int.le_ceil (t - 1 / 2)
    have h2 := Int.ceil_lt_add_one (t - 1 / 2)
    constructor <;> linarith

/-- An integer closer than one half is the rounded value. -/
theorem halfAway_eq_of_abs_lt {t : K} {m : ℤ} (h : |t - m| < 1 / 2) : halfAway t = m := by
  have h1 := abs_sub_halfAway_le t
  have h2 : |(halfAway t : K) - m| < 1 := by
    calc |(halfAway t : K) - m| = |(t - m) - (t - halfAway t)| := by ring_nf
      _ ≤ |t - m| + |t - halfAway t| := abs_sub _ _
      _ < 1 := by linarith
  have h3 : |halfAway t - m| < 1 := by exact_mod_cast h2
  have h4 := Int.abs_lt_one_iff.mp h3
  omega

theorem halfAway_zero : halfAway (0 : K) = 0 := by
  apply halfAway_eq_of_abs_lt
  simp

theorem halfAway_neg (t : K) : halfAway (-t) = -halfAway t := by
  rcases lt_trichotomy t 0 with h | h | h
  · rw [halfAway_of_nonneg (by linarith), halfAway_of_neg h, ← Int.floor_neg]
    congr 1
    ring
  · simp [h, halfAway_zero]
  · rw [halfAway_of_neg (by linarith), halfAway_of_nonneg h.le, ← Int.ceil_neg]
    congr 1
    ring

/-- The rounded value is a nearest integer. -/
theorem abs_sub_halfAway_le_abs_sub (t : K) (m : ℤ) : |t - halfAway t| ≤ |t - m| := by
  by_cases h : |t - m| < 1 / 2
  · rw [halfAway_eq_of_abs_lt h]
  · exact (abs_sub_halfAway_le t).trans (not_lt.mp h)

theorem foldAxis_neg (w inv d : K) : foldAxis w inv (-d) = -foldAxis w inv d := by
  simp only [foldAxis, neg_mul, halfAway_neg, Int.cast_neg]
  ring

@[simp] theorem foldAxis_zero_inv (w d : K) : foldAxis w 0 d = d := by
  simp [foldAxis, halfAway_zero]

/-- The folded coordinate is no longer than any other image. -/
theorem abs_foldAxis_le_abs {w : K} (hw : w ≠ 0) (d : K) (m : ℤ) :
    |foldAxis w (1 / w) d| ≤ |d - w * m| := by
  rw [foldAxis, sub_mul_eq_mul_sub hw, sub_mul_eq_mul_sub hw d m, abs_mul, abs_mul]
  exact mul_le_mul_of_nonneg_left (abs_sub_halfAway_le_abs_sub _ m) (abs_nonneg w)

/-- An image shorter than half the period is the folded one. -/
theorem foldAxis_eq_of_abs_lt {w : K} (hw : 0 < w) {d : K} {m : ℤ} (h : |d - w * m| < w / 2) :
    foldAxis w (1 / w) d = d - w * m := by
  rw [sub_mul_eq_mul_sub hw.ne', abs_mul, abs_of_pos hw] at h
  have h' : |d * (1 / w) - m| < 1 / 2 := by
    have hw' : w * |d * (1 / w) - m| < w * (1 / 2) := by linarith
    exact lt_of_mul_lt_mul_left hw' hw.le
  rw [foldAxis, halfAway_eq_of_abs_lt h']

end Rounding
