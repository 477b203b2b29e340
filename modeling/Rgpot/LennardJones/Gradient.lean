import Rgpot.LennardJones.Energy
import Rgpot.Lib.ImageGap

/-! Lennard-Jones forces and stress are the gradients of the energy. -/
namespace Rgpot
open Nlist Lattice Filter Topology Matrix

section Potential

/-- The 12-6 energy at distance `r`, shifted to zero at the cutoff. -/
noncomputable def shifted126 (c : LJConfig ℝ) (r : ℝ) : ℝ :=
  4 * c.u0 * ((c.psi / r) ^ 12 - (c.psi / r) ^ 6) -
    4 * c.u0 * ((c.psi / c.cutoff) ^ 12 - (c.psi / c.cutoff) ^ 6)

noncomputable def pairPotential (c : LJConfig ℝ) (r : ℝ) : ℝ :=
  if r ≤ c.cutoff then shifted126 c r else 0

def pairs (n : ℕ) : Finset (ℕ × ℕ) :=
  (Finset.range n ×ˢ Finset.range n).filter fun p => p.1 < p.2

/-- The sum over `i < j` of the pair potential at the minimum-image distance. -/
noncomputable def ljEnergy (c : LJConfig ℝ) (n : ℕ) (R : Positions ℝ) (H : Box ℝ) : ℝ :=
  ∑ p ∈ pairs n, pairPotential c (minDist H (R p.1 - R p.2))

theorem mem_pairs {n i j : ℕ} : (i, j) ∈ pairs n ↔ i < j ∧ j < n := by
  simp only [pairs, Finset.mem_filter, Finset.mem_product, Finset.mem_range]
  omega

theorem sum_pairs (n : ℕ) (f : ℕ × ℕ → ℝ) :
    ∑ p ∈ pairs n, f p = ((ascendingPairs n).map f).sum := by
  rw [← List.sum_toFinset f (ascendingPairs_nodup n)]
  congr 1
  ext ⟨i, j⟩
  rw [List.mem_toFinset, mem_pairs, mem_ascendingPairs]

variable {c : LJConfig ℝ} {pot : LJPot ℝ}

/-- The code's pair energy, in terms of the distance. -/
theorem pairEnergy_eq (h : LJPot.make c = .ok pot) (hc : 0 < c.cutoff) (hsw : c.switch_width = 0)
    (v : Vec3 ℝ) : pot.pairEnergy (normSq v) = pairPotential c (len v) := by
  obtain ⟨hu, hr, hpsi, hshift, hw, -⟩ := LJPot.make_eq_ok h
  have hcond : normSq v ≤ pot.cuttOffR * pot.cuttOffR ↔ len v ≤ c.cutoff := by
    rw [← len_mul_self, hr, mul_self_le_mul_self_iff (len_nonneg v) hc.le]
  unfold LJPot.pairEnergy pairPotential
  by_cases hin : len v ≤ c.cutoff
  · rw [if_pos (hcond.mpr hin), if_pos hin]
    simp only [LJPot.kernel, hw, hsw, ne_eq, not_true_eq_false, if_false, LJPot.shiftedTerm,
      LJPot.bareTerm, hu, hpsi, hshift, shifted126, ← len_mul_self]
    rw [show c.psi * c.psi * (1 / (len v * len v)) = (c.psi / len v) ^ 2 by
      rw [div_pow, sq, sq]
      ring]
    ring
  · rw [if_neg (fun hle => hin (hcond.mp hle)), if_neg hin]

theorem pairPotential_of_nearest (h : LJPot.make c = .ok pot) (hc : 0 < c.cutoff)
    (hsw : c.switch_width = 0) {H : Box ℝ} {d v : Vec3 ℝ}
    (hv : IsNearest H (fun _ => true) d v) :
    pairPotential c (minDist H d) = pot.pairEnergy (normSq v) := by
  rw [hv.minDist_eq, pairEnergy_eq h hc hsw]

/-- The force scale is minus twice the derivative in the squared distance. -/
theorem hasDerivAt_shiftedTerm (pot : LJPot ℝ) {x : ℝ} (hx : x ≠ 0) :
    HasDerivAt (fun x => (pot.shiftedTerm x).energy) (-(1 / 2) * (pot.shiftedTerm x).fscale) x := by
  have hform : (fun x => (pot.shiftedTerm x).energy) = fun x : ℝ =>
      4 * pot.u0 * (pot.psi ^ 12 * x⁻¹ ^ 6 - pot.psi ^ 6 * x⁻¹ ^ 3) - pot.cuttOffU := by
    funext x
    simp only [LJPot.shiftedTerm, LJPot.bareTerm, one_div]
    ring
  rw [hform]
  have hinv := hasDerivAt_inv hx
  have h6 := (hinv.fun_pow 6).const_mul (pot.psi ^ 12)
  have h3 := (hinv.fun_pow 3).const_mul (pot.psi ^ 6)
  have hall := ((h6.fun_sub h3).const_mul (4 * pot.u0)).sub_const pot.cuttOffU
  refine HasDerivAt.congr_deriv hall ?_
  norm_num [LJPot.shiftedTerm, LJPot.bareTerm]
  field_simp
  ring

end Potential

section Pair
variable {c : LJConfig ℝ} {pot : LJPot ℝ} {H : Box ℝ} {d v : Vec3 ℝ}

/-- A pair within the cutoff with one nearest image changes its energy as that image moves. -/
theorem hasDerivAt_pair_inside (hmake : LJPot.make c = .ok pot) (hc : 0 < c.cutoff)
    (hsw : c.switch_width = 0) (hdet : H.det ≠ 0) (hv : IsNearest H (fun _ => true) d v)
    (h0 : v ≠ 0) (hin : normSq v < c.cutoff * c.cutoff)
    (huniq : ∀ w, IsNearest H (fun _ => true) d w → w = v) (E : Matrix (Fin 3) (Fin 3) ℝ)
    (u : Vec3 ℝ) :
    HasDerivAt (fun t => pairPotential c (minDist (strainedCell H E t) (strained d E u t)))
      (-((pot.kernel (normSq v)).fscale * (v ⬝ᵥ (v ᵥ* E + u)))) 0 := by
  obtain ⟨-, hr, -, -, hw, -⟩ := LJPot.make_eq_ok hmake
  obtain ⟨n₀, -, hn₀⟩ := hv.is_image
  have hall : ∀ n : Fin 3 → ℤ, Supported (fun _ => true) n := fun n i hi => by simp at hi
  have hstrict : ∀ n, n ≠ n₀ → len (image H d n₀) < len (image H d n) := by
    intro n hn
    refine lt_of_le_of_ne (len_le_of_normSq_le (hn₀ ▸ hv.le_image n (hall n))) fun he => hn ?_
    -- an image as short would be another nearest image
    have hsame : normSq (image H d n) = normSq v := by
      rw [← len_mul_self, ← he, len_mul_self, hn₀]
    have hother : IsNearest H (fun _ => true) d (image H d n) :=
      ⟨⟨n, hall n, rfl⟩, fun m hm => hsame.le.trans (hv.le_image m hm)⟩
    exact image_injective hdet ((huniq _ hother).trans hn₀)
  have hnear := eventually_isNearest hdet hstrict E u
  rw [← hn₀] at hnear
  have hat : normSq (strained v E u 0) = normSq v := by simp [strained_eq_add]
  have hbase := hasDerivAt_normSq_strained v E u
  have hkeep : ∀ᶠ t in 𝓝 (0 : ℝ), normSq (strained v E u t) < c.cutoff * c.cutoff :=
    hbase.continuousAt.eventually_lt_const (by simpa only [hat] using hin)
  have hkernel : ∀ x, pot.kernel x = pot.shiftedTerm x := by
    intro x
    simp [LJPot.kernel, hw, hsw]
  have hlocal : (fun t => pairPotential c (minDist (strainedCell H E t) (strained d E u t))) =ᶠ[𝓝 0]
      fun t => (pot.shiftedTerm (normSq (strained v E u t))).energy := by
    filter_upwards [hnear, hkeep] with t ht1 ht2
    rw [pairPotential_of_nearest hmake hc hsw ht1, LJPot.pairEnergy, hr, if_pos ht2.le, hkernel]
  have hne : normSq (strained v E u 0) ≠ 0 := by
    rw [hat]
    intro hz
    exact h0 (dotProduct_self_eq_zero.mp hz)
  have hterm := hasDerivAt_shiftedTerm pot hne
  have hcomp := hterm.comp (0 : ℝ) hbase
  refine HasDerivAt.congr_deriv (HasDerivAt.congr_of_eventuallyEq hcomp hlocal) ?_
  rw [hat, hkernel]
  ring

/-- A pair beyond the cutoff stays beyond it. -/
theorem hasDerivAt_pair_outside (hc : 0 < c.cutoff) (hv : IsNearest H (fun _ => true) d v)
    (E : Matrix (Fin 3) (Fin 3) ℝ) (u : Vec3 ℝ) (hout : c.cutoff * c.cutoff < normSq v) :
    HasDerivAt (fun t => pairPotential c (minDist (strainedCell H E t) (strained d E u t))) 0 0 := by
  have hρ : c.cutoff < len v := by
    rw [← len_mul_self] at hout
    exact lt_of_mul_self_lt_mul_self₀ (len_nonneg v) hout
  have hfar : ∀ n, len v ≤ len (image H d n) := fun n =>
    len_le_of_normSq_le (hv.le_image n fun i hi => by simp at hi)
  have hzero : (fun t => pairPotential c (minDist (strainedCell H E t) (strained d E u t))) =ᶠ[𝓝 0]
      fun _ => 0 := by
    filter_upwards [eventually_lt_minNormSq hc.le hρ hfar E u] with t ht
    have : c.cutoff < minDist (strainedCell H E t) (strained d E u t) :=
      Real.lt_sqrt_of_sq_lt (by rwa [sq])
    rw [pairPotential, if_neg (not_le.mpr this)]
  exact HasDerivAt.congr_of_eventuallyEq (hasDerivAt_const 0 0) hzero

end Pair

section Configuration

/-- No two atoms coincide, no pair sits at the cutoff, and no pair within the cutoff has two
nearest images. -/
structure Regular (c : LJConfig ℝ) (R : Positions ℝ) (n : ℕ) (box : Box ℝ) : Prop where
  apart : ∀ i j, i < j → j < n → ∀ m, image box (R i - R j) m ≠ 0
  off_cutoff : ∀ i j, i < j → j < n → minDist box (R i - R j) ≠ c.cutoff
  unique : ∀ i j, i < j → j < n → ∀ v w, IsNearest box (fun _ => true) (R i - R j) v →
    IsNearest box (fun _ => true) (R i - R j) w → len v ≤ c.cutoff → v = w

variable {c : LJConfig ℝ} {pot : LJPot ℝ} {R : Positions ℝ} {n : ℕ} {box : Box ℝ}
  {v : ℕ → ℕ → Vec3 ℝ} {t : ℕ → ℕ → Bool}

/-- The records of a regular configuration are the pairs strictly within the cutoff. -/
theorem NearestCalls.listed_iff (hmake : LJPot.make c = .ok pot) (hc : 0 < c.cutoff)
    (hreg : Regular c R n box) (h : NearestCalls R n box pot.options v t) {i j : ℕ} (hij : i < j)
    (hj : j < n) : (t i j = true → normSq (v i j) < c.cutoff * c.cutoff) ∧
      (t i j = false → c.cutoff * c.cutoff < normSq (v i j)) := by
  obtain ⟨-, hr, -⟩ := LJPot.make_eq_ok hmake
  have hwithin := h.within i j hij hj
  have hbelow := h.below i j hij hj
  simp only [LJPot.options, hr, sqNorm_eq_normSq] at hwithin hbelow
  have hne : normSq (v i j) ≠ c.cutoff * c.cutoff := by
    intro he
    apply hreg.off_cutoff i j hij hj
    rw [(h.nearest i j hij hj).minDist_eq]
    rw [← len_mul_self] at he
    exact (mul_self_inj (len_nonneg _) hc.le).mp he
  constructor
  · exact fun ht => lt_of_le_of_ne (hwithin ht) hne
  · intro ht
    refine lt_of_le_of_ne (not_lt.mp fun hlt => ?_) hne.symm
    rw [hbelow hlt] at ht
    cases ht

/-- The derivative of the energy along any strain of cell and atoms with any displacement of
the atoms: minus the work of the summed pair forces. -/
theorem hasDerivAt_ljEnergy (hmake : LJPot.make c = .ok pot) (hc : 0 < c.cutoff)
    (hsw : c.switch_width = 0) (hdet : box.det ≠ 0) (hreg : Regular c R n box)
    (h : NearestCalls R n box pot.options v t) (E : Matrix (Fin 3) (Fin 3) ℝ) (u : ℕ → Vec3 ℝ) :
    HasDerivAt (fun x => ljEnergy c n (fun a => strained (R a) E (u a) x) (strainedCell box E x))
      (-((listedPairs n t).map fun p => (pot.kernel (normSq (v p.1 p.2))).fscale *
        (v p.1 p.2 ⬝ᵥ (v p.1 p.2 ᵥ* E + (u p.1 - u p.2)))).sum) 0 := by
  have hpair : ∀ p ∈ pairs n, HasDerivAt
      (fun x => pairPotential c (minDist (strainedCell box E x)
        (strained (R p.1) E (u p.1) x - strained (R p.2) E (u p.2) x)))
      (if t p.1 p.2 then -((pot.kernel (normSq (v p.1 p.2))).fscale *
        (v p.1 p.2 ⬝ᵥ (v p.1 p.2 ᵥ* E + (u p.1 - u p.2)))) else 0) 0 := by
    rintro ⟨i, j⟩ hp
    obtain ⟨hij, hj⟩ := mem_pairs.mp hp
    have hsep : ∀ x, strained (R i) E (u i) x - strained (R j) E (u j) x =
        strained (R i - R j) E (u i - u j) x := by
      intro x
      simp only [strained, Matrix.sub_vecMul, smul_sub]
      abel
    obtain ⟨hin, hout⟩ := NearestCalls.listed_iff hmake hc hreg h hij hj
    have hnear := h.nearest i j hij hj
    simp only [hsep]
    cases ht : t i j with
    | false => exact hasDerivAt_pair_outside hc hnear E _ (hout ht)
    | true =>
      rw [if_pos rfl]
      have hlen : len (v i j) ≤ c.cutoff := by
        rw [mul_self_le_mul_self_iff (len_nonneg _) hc.le, len_mul_self]
        exact (hin ht).le
      have h0 : v i j ≠ 0 := by
        obtain ⟨m, -, hm⟩ := hnear.is_image
        rw [hm]
        exact hreg.apart i j hij hj m
      exact hasDerivAt_pair_inside hmake hc hsw hdet hnear h0 (hin ht)
        (fun w hw => (hreg.unique i j hij hj _ w hnear hw hlen).symm) E _
  have hsum := HasDerivAt.fun_sum hpair
  refine HasDerivAt.congr_deriv hsum ?_
  rw [sum_pairs, ← sum_listedPairs (t := t) _ fun i j _ _ ht => by simp [ht], List.sum_neg,
    List.map_map]
  congr 1
  apply List.map_congr_left
  rintro ⟨i, j⟩ hp
  obtain ⟨-, -, ht⟩ := mem_listedPairs.mp hp
  simp [ht]

end Configuration
end Rgpot
