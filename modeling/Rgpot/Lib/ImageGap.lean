import Rgpot.Lib.Lattice

/-! Nearest images over the reals stay nearest under small moves and strains. -/
namespace Lattice
open Matrix Filter Topology

variable {ι : Type} [Fintype ι]

/-- The Euclidean length. -/
noncomputable def len (v : ι → ℝ) : ℝ := ‖(WithLp.toLp 2 v : EuclideanSpace ℝ ι)‖

theorem len_nonneg (v : ι → ℝ) : 0 ≤ len v := norm_nonneg _

theorem len_mul_self (v : ι → ℝ) : len v * len v = normSq v := by
  rw [← sq, len, EuclideanSpace.norm_sq_eq, normSq, dotProduct]
  simp [sq]

theorem len_le_of_normSq_le {v w : ι → ℝ} (h : normSq v ≤ normSq w) : len v ≤ len w := by
  rw [← len_mul_self, ← len_mul_self] at h
  exact (mul_self_le_mul_self_iff (len_nonneg v) (len_nonneg w)).mpr h

theorem normSq_le_of_len_le {v w : ι → ℝ} (h : len v ≤ len w) : normSq v ≤ normSq w := by
  rw [← len_mul_self, ← len_mul_self]
  exact mul_self_le_mul_self (len_nonneg v) h

theorem len_add_le (v w : ι → ℝ) : len (v + w) ≤ len v + len w := by
  simpa only [len, WithLp.toLp_add] using norm_add_le _ _

theorem len_sub_le_add (v w : ι → ℝ) : len v - len w ≤ len (v + w) := by
  have h := norm_sub_norm_le (WithLp.toLp 2 v : EuclideanSpace ℝ ι) (-WithLp.toLp 2 w)
  simpa only [len, WithLp.toLp_add, norm_neg, sub_neg_eq_add] using h

theorem len_smul (t : ℝ) (v : ι → ℝ) : len (t • v) = |t| * len v := by
  simp [len, WithLp.toLp_smul, norm_smul]

/-- A matrix stretches lengths by a bounded factor. -/
theorem exists_len_vecMul_le (E : Matrix ι ι ℝ) :
    ∃ A, 0 ≤ A ∧ ∀ v : ι → ℝ, len (v ᵥ* E) ≤ A * len v := by
  refine ⟨len fun j => len fun i => E i j, len_nonneg _, fun v => ?_⟩
  rw [← abs_of_nonneg (mul_nonneg (len_nonneg _) (len_nonneg v)), ← abs_of_nonneg (len_nonneg _)]
  apply sq_le_sq.mp
  rw [mul_pow, sq, sq, sq, len_mul_self, len_mul_self, len_mul_self, mul_comm]
  calc normSq (v ᵥ* E) = ∑ j, (v ⬝ᵥ fun i => E i j) * (v ⬝ᵥ fun i => E i j) := rfl
    _ ≤ ∑ j, normSq v * normSq (fun i => E i j) :=
        Finset.sum_le_sum fun j _ => dotProduct_sq_le v _
    _ = normSq v * normSq (fun j => len fun i => E i j) := by
        rw [← Finset.mul_sum]
        exact congrArg _ (Finset.sum_congr rfl fun j _ => (len_mul_self _).symm)

/-- The squared minimum-image distance. -/
noncomputable def minNormSq (H : Matrix ι ι ℝ) (d : ι → ℝ) : ℝ :=
  ⨅ n : ι → ℤ, normSq (image H d n)

noncomputable def minDist (H : Matrix ι ι ℝ) (d : ι → ℝ) : ℝ := Real.sqrt (minNormSq H d)

theorem bddBelow_normSq (H : Matrix ι ι ℝ) (d : ι → ℝ) :
    BddBelow (Set.range fun n : ι → ℤ => normSq (image H d n)) :=
  ⟨0, by rintro _ ⟨n, rfl⟩; exact normSq_nonneg _⟩

theorem IsNearest.minNormSq_eq {H : Matrix ι ι ℝ} {d v : ι → ℝ}
    (h : IsNearest H (fun _ => true) d v) : minNormSq H d = normSq v := by
  have hall : ∀ n : ι → ℤ, Supported (fun _ => true) n := fun n i hi => by simp at hi
  obtain ⟨n, -, rfl⟩ := h.is_image
  exact le_antisymm (ciInf_le (bddBelow_normSq H d) n) (le_ciInf fun m => h.le_image m (hall m))

theorem IsNearest.minDist_eq {H : Matrix ι ι ℝ} {d v : ι → ℝ}
    (h : IsNearest H (fun _ => true) d v) : minDist H d = len v := by
  rw [minDist, h.minNormSq_eq, ← len_mul_self, Real.sqrt_mul_self (len_nonneg v)]

variable [DecidableEq ι]

section Gap
variable {H : Matrix ι ι ℝ} {d : ι → ℝ}

/-- Only finitely many images are shorter than a bound. -/
theorem finite_image_le (hH : H.det ≠ 0) (r : ℝ) (hr : 0 ≤ r) :
    {n : ι → ℤ | len (image H d n) ≤ r}.Finite := by
  have hG : H * H⁻¹ = 1 := Matrix.mul_nonsing_inv H (isUnit_iff_ne_zero.mpr hH)
  apply Set.Finite.subset (Set.Finite.pi' fun k => Set.finite_Icc
    ⌊(d ᵥ* H⁻¹) k - r * len (fun i => H⁻¹ i k)⌋ ⌈(d ᵥ* H⁻¹) k + r * len (fun i => H⁻¹ i k)⌉)
  intro n hn k
  have hn' : normSq (image H d n) ≤ r * r := by
    rw [← len_mul_self]
    exact mul_self_le_mul_self (len_nonneg _) hn
  have h := abs_le.mp (abs_frac_sub_le hG (k := k) hr (len_nonneg fun i => H⁻¹ i k) hn'
    (len_mul_self _).ge)
  constructor
  · exact_mod_cast (Int.floor_le _).trans (show _ ≤ (n k : ℝ) by linarith)
  · exact_mod_cast (show (n k : ℝ) ≤ _ by linarith).trans (Int.le_ceil _)

/-- A strictly nearest image leaves a gap to all others. -/
theorem exists_gap (hH : H.det ≠ 0) {n₀ : ι → ℤ}
    (huniq : ∀ n, n ≠ n₀ → len (image H d n₀) < len (image H d n)) :
    ∃ ρ, len (image H d n₀) < ρ ∧ ∀ n, n ≠ n₀ → ρ ≤ len (image H d n) := by
  set ρ₀ := len (image H d n₀) with hρ₀
  have hfin : {n : ι → ℤ | n ≠ n₀ ∧ len (image H d n) ≤ ρ₀ + 1}.Finite :=
    (finite_image_le hH (ρ₀ + 1) (by positivity [len_nonneg (image H d n₀)])).subset
      fun n hn => hn.2
  rcases Set.eq_empty_or_nonempty {n : ι → ℤ | n ≠ n₀ ∧ len (image H d n) ≤ ρ₀ + 1} with
    hempty | hne
  · refine ⟨ρ₀ + 1, by linarith, fun n hn => ?_⟩
    by_contra hlt
    exact Set.eq_empty_iff_forall_notMem.mp hempty n ⟨hn, (not_le.mp hlt).le⟩
  · obtain ⟨m, ⟨hm, -⟩, hmin⟩ := Set.exists_min_image _ (fun n => len (image H d n)) hfin hne
    refine ⟨min (len (image H d m)) (ρ₀ + 1), lt_min (huniq m hm) (by linarith), fun n hn => ?_⟩
    rcases le_or_gt (len (image H d n)) (ρ₀ + 1) with hle | hgt
    · exact (min_le_left _ _).trans (hmin n ⟨hn, hle⟩)
    · exact (min_le_right _ _).trans hgt.le

theorem image_injective {n m : ι → ℤ} (hdet : H.det ≠ 0) (h : image H d n = image H d m) :
    n = m := by
  have hzero : (fun k => ((n k : ℝ) - m k)) ᵥ* H = 0 := by
    have hsub : (fun k => ((n k : ℝ) - m k)) = (fun k => (n k : ℝ)) - fun k => (m k : ℝ) := rfl
    rw [hsub, Matrix.sub_vecMul]
    simp only [image, sub_right_inj] at h
    rw [h, sub_self]
  have hk := Matrix.eq_zero_of_vecMul_eq_zero hdet hzero
  ext k
  have := congrFun hk k
  simp only [Pi.zero_apply, sub_eq_zero] at this
  exact_mod_cast this

end Gap

section Path

/-- The cell under the strain `t E`. -/
def strainedCell (H E : Matrix ι ι ℝ) (t : ℝ) : Matrix ι ι ℝ := H * (1 + t • E)

/-- A vector under the strain `t E` and a displacement `t u`. -/
def strained (x : ι → ℝ) (E : Matrix ι ι ℝ) (u : ι → ℝ) (t : ℝ) : ι → ℝ :=
  x ᵥ* (1 + t • E) + t • u

theorem strained_eq_add (x : ι → ℝ) (E : Matrix ι ι ℝ) (u : ι → ℝ) (t : ℝ) :
    strained x E u t = x + t • (x ᵥ* E + u) := by
  rw [strained, Matrix.vecMul_add, Matrix.vecMul_one, Matrix.vecMul_smul, smul_add, add_assoc]

/-- Images move with the strain. -/
theorem image_strained (H E : Matrix ι ι ℝ) (d u : ι → ℝ) (t : ℝ) (n : ι → ℤ) :
    image (strainedCell H E t) (strained d E u t) n = strained (image H d n) E u t := by
  simp only [image, strainedCell, strained, Matrix.sub_vecMul, Matrix.vecMul_vecMul]
  abel

/-- A small strain and displacement change lengths by little, relative to the length. -/
theorem exists_len_strained (E : Matrix ι ι ℝ) (u : ι → ℝ) : ∃ A B, 0 ≤ A ∧ 0 ≤ B ∧
    ∀ x t, len (strained x E u t) ≤ len x + |t| * (A * len x + B) ∧
      len x - |t| * (A * len x + B) ≤ len (strained x E u t) := by
  obtain ⟨A, hA, hstretch⟩ := exists_len_vecMul_le E
  refine ⟨A, len u, hA, len_nonneg u, fun x t => ?_⟩
  have hstep : len (t • (x ᵥ* E + u)) ≤ |t| * (A * len x + len u) := by
    rw [len_smul]
    apply mul_le_mul_of_nonneg_left _ (abs_nonneg t)
    exact (len_add_le _ _).trans (by linarith [hstretch x])
  rw [strained_eq_add]
  constructor
  · exact (len_add_le _ _).trans (by linarith)
  · exact le_trans (by linarith) (len_sub_le_add _ _)

theorem eventually_abs_mul_lt (C : ℝ) {δ : ℝ} (hδ : 0 < δ) : ∀ᶠ t : ℝ in 𝓝 0, |t| * C < δ := by
  have hcont : Continuous fun t : ℝ => |t| * C := continuous_abs.mul continuous_const
  exact hcont.continuousAt.eventually_lt_const (by simpa using hδ)

variable {H : Matrix ι ι ℝ} {d : ι → ℝ}

/-- A strictly nearest image stays nearest. -/
theorem eventually_isNearest (hH : H.det ≠ 0) {n₀ : ι → ℤ}
    (huniq : ∀ n, n ≠ n₀ → len (image H d n₀) < len (image H d n)) (E : Matrix ι ι ℝ)
    (u : ι → ℝ) : ∀ᶠ t in 𝓝 (0 : ℝ), IsNearest (strainedCell H E t) (fun _ => true)
      (strained d E u t) (strained (image H d n₀) E u t) := by
  obtain ⟨ρ, hρ, hgap⟩ := exists_gap hH huniq
  obtain ⟨A, B, hA, hB, hlen⟩ := exists_len_strained E u
  set ρ₀ := len (image H d n₀) with hρ₀
  filter_upwards [eventually_abs_mul_lt A one_pos,
    eventually_abs_mul_lt (A * (ρ + ρ₀) + 2 * B) (sub_pos.mpr hρ)] with t ht1 ht2
  refine ⟨⟨n₀, fun i hi => by simp at hi, (image_strained H E d u t n₀).symm⟩, fun n _ => ?_⟩
  rw [image_strained]
  by_cases hn : n = n₀
  · rw [hn]
  · apply normSq_le_of_len_le
    have hlo := (hlen (image H d n) t).2
    have hhi := (hlen (image H d n₀) t).1
    have hρn := hgap n hn
    -- the other image keeps its lead: it shrinks by a factor, not below the gap
    have hshrink : ρ - |t| * (A * ρ + B) ≤
        len (image H d n) - |t| * (A * len (image H d n) + B) := by
      nlinarith
    rw [← hρ₀] at hhi
    nlinarith

/-- Images beyond a bound stay beyond it. -/
theorem eventually_lt_minNormSq {c : ℝ} (hc : 0 ≤ c) {ρ : ℝ} (hρ : c < ρ)
    (hfar : ∀ n, ρ ≤ len (image H d n)) (E : Matrix ι ι ℝ) (u : ι → ℝ) :
    ∀ᶠ t in 𝓝 (0 : ℝ), c * c < minNormSq (strainedCell H E t) (strained d E u t) := by
  obtain ⟨A, B, hA, hB, hlen⟩ := exists_len_strained E u
  filter_upwards [eventually_abs_mul_lt A one_pos,
    eventually_abs_mul_lt (A * ρ + B) (sub_pos.mpr hρ)] with t ht1 ht2
  have hkeep : ∀ n, ρ - |t| * (A * ρ + B) ≤ len (strained (image H d n) E u t) := by
    intro n
    have hlo := (hlen (image H d n) t).2
    have hρn := hfar n
    nlinarith
  calc c * c < (ρ - |t| * (A * ρ + B)) * (ρ - |t| * (A * ρ + B)) :=
        mul_self_lt_mul_self hc (by linarith)
    _ ≤ minNormSq (strainedCell H E t) (strained d E u t) := by
        apply le_ciInf
        intro n
        rw [image_strained, ← len_mul_self]
        exact mul_self_le_mul_self (by linarith) (hkeep n)

/-- The squared length changes at the rate `2 x · (x E + u)`. -/
theorem hasDerivAt_normSq_strained (x : ι → ℝ) (E : Matrix ι ι ℝ) (u : ι → ℝ) :
    HasDerivAt (fun t => normSq (strained x E u t)) (2 * (x ⬝ᵥ (x ᵥ* E + u))) 0 := by
  have hquad : (fun t => normSq (strained x E u t)) = fun t : ℝ =>
      normSq x + t * (2 * (x ⬝ᵥ (x ᵥ* E + u))) + t ^ 2 * normSq (x ᵥ* E + u) := by
    funext t
    rw [strained_eq_add]
    simp only [normSq, add_dotProduct, dotProduct_add, smul_dotProduct, dotProduct_smul,
      smul_eq_mul, dotProduct_comm _ x]
    ring
  rw [hquad]
  have h1 := ((hasDerivAt_id (0 : ℝ)).mul_const (2 * (x ⬝ᵥ (x ᵥ* E + u)))).const_add (normSq x)
  have h2 := ((hasDerivAt_pow 2 (0 : ℝ)).mul_const (normSq (x ᵥ* E + u)))
  exact HasDerivAt.congr_deriv (HasDerivAt.fun_add h1 h2) (by simp)

end Path
end Lattice
