import Rgpot.Fortran.Gather

/-! The Stillinger-Weber kernel in gather form: its forces are exactly minus the gradient of its energy. -/
namespace Rgpot.Fortran.Sw
open Bonds

/-- `sw_params_t`; the defaults are the silicon set. -/
structure SwParams (K : Type) [Field K] where
  sigma : K := 2.0951
  alpha : K := 1.8
  epsilon : K := 2.16826 * 1.06767385
  lambda : K := 21
  a : K := 7.049556277
  beta : K := 0.6022245584
  gamma : K := 1.2
  p : ℤ := 4
  s0 : K := 3.6
  a0 : K := 0

section Kernel
variable {K : Type} [Field K] [LinearOrder K] [Elementary K] [Circular K]

/-- `sw_cutoff`. -/
def SwParams.cutoff (par : SwParams K) : K := par.alpha * par.sigma

/-- The pair energy and minus its slope. -/
def twoBody (par : SwParams K) (rij : K) : K × K :=
  let inv_sigma := 1 / par.sigma
  let a_eps := par.a * par.epsilon
  let rho := rij * inv_sigma
  let one_o_a := 1 / (rho - par.alpha)
  let one_o_a2 := one_o_a * one_o_a
  let expo := guardedExp one_o_a
  let r_to_minus_p := rho ^ (-par.p)
  let energy := a_eps * (par.beta * r_to_minus_p - 1) * expo
  let dedr := (one_o_a2 * energy + a_eps * par.p * par.beta * r_to_minus_p * expo / rho) * inv_sigma
  if rij ≤ par.s0 ∧ par.a0 ≠ 0 then
    (energy + par.a0 * (Circular.cos (pi * rij / par.s0) + 1),
      dedr + par.a0 * pi / par.s0 * Circular.sin (pi * rij / par.s0))
  else (energy, dedr)

/-- The exponential of one leg and the factor of its slope. -/
def legFactor (par : SwParams K) (r : K) : K × K :=
  let rho := r / par.sigma
  let one_o_a := 1 / (rho - par.alpha)
  let gam_o_a := par.gamma * one_o_a
  (guardedExp gam_o_a, gam_o_a * one_o_a / par.sigma)

/-- The force on the end that `u_end` points to. -/
def endAtomForce (par : SwParams K) (u_end : Fin 3 → K) (r_end : K) (u_other : Fin 3 → K)
    (r_other : K) : Fin 3 → K :=
  let (expo_end, dfac_end) := legFactor par r_end
  let (expo_other, _) := legFactor par r_other
  let fact := par.epsilon * par.lambda * expo_end * expo_other
  let cosine := u_end ⬝ᵥ u_other
  let cos_shift := cosine + 1 / 3
  let radial := fact * dfac_end * cos_shift * cos_shift
  let angular := 2 * fact * cos_shift
  fun d => radial * u_end d - angular * ((u_other d - cosine * u_end d) / r_end)

def tripletEnergy (par : SwParams K) (u_j : Fin 3 → K) (r_j : K) (u_k : Fin 3 → K) (r_k : K) : K :=
  let (expo_j, _) := legFactor par r_j
  let (expo_k, _) := legFactor par r_k
  let cos_shift := u_j ⬝ᵥ u_k + 1 / 3
  par.epsilon * par.lambda * expo_j * expo_k * cos_shift * cos_shift

/-- `atom_contribution`: the energy owned by atom `i` and the force on it. -/
def atomContribution (par : SwParams K) (table : NeighborTable K) (i : ℕ) : K × (Fin 3 → K) :=
  let centre := table.overRow i fun sj =>
    let (e_pair, dedr) := twoBody par (table.dist sj)
    let pair : K × (Fin 3 → K) := (0.5 * e_pair, fun d => -(dedr * table.unitVec sj d))
    pair + accumulate (sj + 1) (table.row (i + 1)) fun sk =>
      (tripletEnergy par (table.unitVec sj) (table.dist sj) (table.unitVec sk) (table.dist sk),
        -endAtomForce par (table.unitVec sj) (table.dist sj) (table.unitVec sk) (table.dist sk) -
          endAtomForce par (table.unitVec sk) (table.dist sk) (table.unitVec sj) (table.dist sj))
  let end_ := table.overRow i fun sm =>
    table.overRow (table.idx sm) fun sn =>
      if table.idx sn = i then 0
      else endAtomForce par (table.backVec sm) (table.dist sm) (table.unitVec sn) (table.dist sn)
  (centre.1, centre.2 + end_)

/-- `sw_energy_forces`. -/
def swEnergyForces {v : Vesin K} (par : SwParams K) (t : TableState v) (x : Atoms K) (heap : Heap K) :
    Evaluation K x.natoms × TableState v :=
  evaluate (.ok ()) t x par.cutoff heap fun table =>
    let atom (i : Fin x.natoms) := atomContribution par table (i + 1)
    .ok (∑ i, (atom i).1, fun i => (atom i).2)

end Kernel

section Slopes
variable {par : SwParams ℝ} {r : ℝ}

/-- The repulsion between unlike species ends with slope zero at its range. -/
theorem hasDerivAt_unlike (par : SwParams ℝ) (hr : 0 < r) :
    HasDerivAt (fun r => if r ≤ par.s0 ∧ par.a0 ≠ 0 then par.a0 * (Real.cos (Real.pi * r / par.s0) + 1) else 0)
      (-if r ≤ par.s0 ∧ par.a0 ≠ 0 then par.a0 * Real.pi / par.s0 * Real.sin (Real.pi * r / par.s0) else 0) r := by
  by_cases ha : par.a0 = 0
  · simp only [ha, ne_eq, not_true_eq_false, and_false, if_false, neg_zero]
    exact hasDerivAt_const r 0
  have hwave : ∀ r, HasDerivAt (fun r => par.a0 * (Real.cos (Real.pi * r / par.s0) + 1))
      (-(par.a0 * Real.pi / par.s0 * Real.sin (Real.pi * r / par.s0))) r := by
    intro r
    have hline : HasDerivAt (fun r => Real.pi * r / par.s0) (Real.pi / par.s0) r := by
      simpa using ((hasDerivAt_id r).const_mul Real.pi).div_const par.s0
    refine ((hline.cos.add_const 1).const_mul par.a0).congr_deriv ?_
    ring
  simp only [ha, ne_eq, not_false_eq_true, and_true]
  rcases lt_trichotomy r par.s0 with hlt | rfl | hgt
  · rw [if_pos hlt.le]
    refine (hwave r).congr_of_eventuallyEq ?_
    filter_upwards [Iio_mem_nhds hlt] with y hy
    exact if_pos (le_of_lt hy)
  · -- both sides have slope zero
    have hturn : Real.pi * par.s0 / par.s0 = Real.pi := mul_div_cancel_right₀ _ hr.ne'
    have hzero : -(par.a0 * Real.pi / par.s0 * Real.sin (Real.pi * par.s0 / par.s0)) = 0 := by
      rw [hturn, Real.sin_pi, mul_zero, neg_zero]
    have hend : par.a0 * (Real.cos (Real.pi * par.s0 / par.s0) + 1) = 0 := by
      rw [hturn, Real.cos_pi]
      ring
    rw [if_pos le_rfl, hzero]
    exact hasDerivAt_joined (hzero ▸ hwave par.s0) (hasDerivAt_const par.s0 0) hend.symm
  · rw [if_neg hgt.not_ge, neg_zero]
    refine (hasDerivAt_const r (0 : ℝ)).congr_of_eventuallyEq ?_
    filter_upwards [Ioi_mem_nhds hgt] with y hy
    exact if_neg (not_le.mpr hy)

/-- The second output of `two_body` is minus the slope of the first. -/
theorem hasDerivAt_twoBody (hr : 0 < r) (hsigma : par.sigma ≠ 0)
    (hcut : r * (1 / par.sigma) ≠ par.alpha) (hfloor : 1 / (r * (1 / par.sigma) - par.alpha) ≠ expFloor) :
    HasDerivAt (fun r => (twoBody par r).1) (-(twoBody par r).2) r := by
  set rho := r * (1 / par.sigma) with hrho
  have hrho0 : rho ≠ 0 := mul_ne_zero hr.ne' (one_div_ne_zero hsigma)
  have hline : HasDerivAt (fun r => r * (1 / par.sigma)) (1 / par.sigma) r := by
    simpa using (hasDerivAt_id r).mul_const (1 / par.sigma)
  have hinv : HasDerivAt (fun r => 1 / (r * (1 / par.sigma) - par.alpha))
      (-(1 / par.sigma) / (rho - par.alpha) ^ 2) r := by
    simp only [one_div (_ - _)]
    exact (hline.sub_const par.alpha).fun_inv (sub_ne_zero.mpr hcut)
  have hexp := hasDerivAt_guardedExp hinv hfloor
  have hpow : HasDerivAt (fun r => (r * (1 / par.sigma)) ^ (-par.p))
      (((-par.p : ℤ) : ℝ) * rho ^ (-par.p - 1) * (1 / par.sigma)) r := by
    have := (hasDerivAt_zpow (-par.p) rho (Or.inl hrho0)).comp r hline
    exact this
  have hbare := ((((hpow.const_mul par.beta).sub_const 1).const_mul (par.a * par.epsilon)).fun_mul hexp).fun_add
    (hasDerivAt_unlike par hr)
  have hform : (fun r => (twoBody par r).1) = fun r =>
      par.a * par.epsilon * (par.beta * (r * (1 / par.sigma)) ^ (-par.p) - 1) *
          guardedExp (1 / (r * (1 / par.sigma) - par.alpha)) +
        if r ≤ par.s0 ∧ par.a0 ≠ 0 then par.a0 * (Real.cos (Real.pi * r / par.s0) + 1) else 0 := by
    funext r
    simp only [twoBody, pi_real]
    split
    · rfl
    · rw [add_zero]
  have hslope : (twoBody par r).2 =
      (1 / (rho - par.alpha) * (1 / (rho - par.alpha)) *
          (par.a * par.epsilon * (par.beta * rho ^ (-par.p) - 1) * guardedExp (1 / (rho - par.alpha))) +
        par.a * par.epsilon * par.p * par.beta * rho ^ (-par.p) * guardedExp (1 / (rho - par.alpha)) / rho) *
          (1 / par.sigma) +
        if r ≤ par.s0 ∧ par.a0 ≠ 0 then par.a0 * Real.pi / par.s0 * Real.sin (Real.pi * r / par.s0) else 0 := by
    simp only [twoBody, pi_real]
    split
    · rfl
    · rw [add_zero]
  rw [hform, hslope]
  refine hbare.congr_deriv ?_
  have hshift : rho - par.alpha ≠ 0 := sub_ne_zero.mpr hcut
  rw [← hrho, zpow_sub_one₀ hrho0]
  generalize guardedExp (1 / (rho - par.alpha)) = expo
  push_cast
  field_simp
  ring

theorem hasDerivAt_legFactor (hcut : r / par.sigma ≠ par.alpha)
    (hfloor : par.gamma * (1 / (r / par.sigma - par.alpha)) ≠ expFloor) :
    HasDerivAt (fun r => (legFactor par r).1) (-((legFactor par r).1 * (legFactor par r).2)) r := by
  have hline : HasDerivAt (fun r => r / par.sigma) (1 / par.sigma) r := (hasDerivAt_id r).div_const par.sigma
  have hinv : HasDerivAt (fun r => par.gamma * (1 / (r / par.sigma - par.alpha)))
      (par.gamma * (-(1 / par.sigma) / (r / par.sigma - par.alpha) ^ 2)) r := by
    have := ((hline.sub_const par.alpha).fun_inv (sub_ne_zero.mpr hcut)).const_mul par.gamma
    simpa only [one_div] using this
  refine (hasDerivAt_guardedExp hinv hfloor).congr_deriv ?_
  have hshift : r / par.sigma - par.alpha ≠ 0 := sub_ne_zero.mpr hcut
  simp only [legFactor]
  field_simp

end Slopes

section Gradient
variable {n : ℕ} (par : SwParams ℝ) (H : Matrix (Fin 3) (Fin 3) ℝ) (R : Places (Fin n) (Fin 3))

noncomputable def triplet (b c : Bond (Fin n) (Fin 3)) : ℝ :=
  tripletEnergy par (unit H R b) (length H R b) (unit H R c) (length H R c)

noncomputable def endForce (b c : Bond (Fin n) (Fin 3)) : Fin 3 → ℝ :=
  endAtomForce par (unit H R b) (length H R b) (unit H R c) (length H R c)

/-- The published sum: pairs, and triplets around each atom. -/
noncomputable def swEnergyOver (B : Finset (Bond (Fin n) (Fin 3))) : ℝ :=
  ∑ b ∈ B, 1 / 2 * (twoBody par (length H R b)).1 +
    ∑ a, ∑ b ∈ rowOf B a, ∑ c ∈ (rowOf B a).erase b, 1 / 2 * triplet par H R b c

noncomputable def swEnergy : ℝ := swEnergyOver par H R (within H R par.cutoff)

/-- Positions at which no pair is at the cutoff or at an underflow of an exponential, no two atoms
coincide, and no row holds two images of one atom. -/
structure Regular : Prop where
  off_cutoff : ∀ b : Bond (Fin n) (Fin 3), b.src ≠ b.dst → length H R b ≠ par.cutoff
  apart : ∀ b ∈ within H R par.cutoff, 0 < length H R b
  off_floor : ∀ b ∈ within H R par.cutoff,
    1 / (length H R b * (1 / par.sigma) - par.alpha) ≠ expFloor ∧
    par.gamma * (1 / (length H R b / par.sigma - par.alpha)) ≠ expFloor
  one_image : ∀ b ∈ within H R par.cutoff, ∀ c ∈ within H R par.cutoff,
    b.src = c.src → b.dst = c.dst → b = c

variable {par H R}

theorem triplet_eq (b c : Bond (Fin n) (Fin 3)) : triplet par H R b c =
    par.epsilon * par.lambda * ((legFactor par (length H R b)).1 * (legFactor par (length H R c)).1) *
      ((cosine H R b c + 1 / 3) * (cosine H R b c + 1 / 3)) := by
  simp only [triplet, tripletEnergy, cosine]
  ring

theorem endForce_eq (b c : Bond (Fin n) (Fin 3)) : endForce par H R b c =
    (par.epsilon * par.lambda * (legFactor par (length H R b)).1 * (legFactor par (length H R c)).1 *
      (legFactor par (length H R b)).2 * (cosine H R b c + 1 / 3) * (cosine H R b c + 1 / 3)) • unit H R b -
    (2 * (par.epsilon * par.lambda * (legFactor par (length H R b)).1 * (legFactor par (length H R c)).1) *
      (cosine H R b c + 1 / 3)) • cosineSlope H R b c := by
  funext d
  simp only [endForce, endAtomForce, cosineSlope, cosine, Pi.sub_apply, Pi.smul_apply, smul_eq_mul,
    div_eq_inv_mul]

/-- A triplet pulls at its ends with the forces of the source. -/
theorem hasFDerivAt_triplet {b c : Bond (Fin n) (Fin 3)} (hb : 0 < length H R b) (hc : 0 < length H R c)
    (hlegb : HasDerivAt (fun r => (legFactor par r).1)
      (-((legFactor par (length H R b)).1 * (legFactor par (length H R b)).2)) (length H R b))
    (hlegc : HasDerivAt (fun r => (legFactor par r).1)
      (-((legFactor par (length H R c)).1 * (legFactor par (length H R c)).2)) (length H R c)) :
    HasFDerivAt (fun R => triplet par H R b c)
      (pull b (-endForce par H R b c) + pull c (-endForce par H R c b)) R := by
  have hcos := (hasFDerivAt_cosine H hb hc).add_const (1 / 3)
  have hlegs := (hasFDerivAt_radial H hb hlegb).fun_mul (hasFDerivAt_radial H hc hlegc)
  have hall := (hlegs.const_mul (par.epsilon * par.lambda)).fun_mul (hcos.fun_mul hcos)
  simp only [triplet_eq]
  refine hall.congr_fderiv ?_
  rw [endForce_eq, endForce_eq, cosine_comm H R c b]
  simp only [map_neg, map_sub, map_smul]
  ext u
  simp only [add_apply, sub_apply, neg_apply, smul_apply, smul_eq_mul]
  ring

namespace Regular

/-- Pairs within the cutoff meet what the slopes need. -/
theorem bond (h : Regular par H R) (hH : H.det ≠ 0) {b : Bond (Fin n) (Fin 3)}
    (hb : b ∈ within H R par.cutoff) :
    HasDerivAt (fun r => (twoBody par r).1) (-(twoBody par (length H R b)).2) (length H R b) ∧
    HasDerivAt (fun r => (legFactor par r).1)
      (-((legFactor par (length H R b)).1 * (legFactor par (length H R b)).2)) (length H R b) := by
  have hpos := h.apart b hb
  obtain ⟨hne, hlt⟩ := (mem_within hH).mp hb
  have hsigma : par.sigma ≠ 0 := by
    intro hzero
    rw [SwParams.cutoff, hzero, mul_zero] at hlt
    exact hlt.not_gt hpos
  obtain ⟨hpair, hleg⟩ := h.off_floor b hb
  have hcut : length H R b / par.sigma ≠ par.alpha := by
    intro heq
    rw [div_eq_iff hsigma] at heq
    exact hlt.ne heq
  have hcut' : length H R b * (1 / par.sigma) ≠ par.alpha := by
    rwa [mul_one_div]
  exact ⟨hasDerivAt_twoBody hpos hsigma hcut' hpair, hasDerivAt_legFactor hcut hleg⟩

end Regular

/-- What the energy pulls at a bond. -/
noncomputable def pulled (par : SwParams ℝ) (H : Matrix (Fin 3) (Fin 3) ℝ) (R : Places (Fin n) (Fin 3))
    (B : Finset (Bond (Fin n) (Fin 3))) (b : Bond (Fin n) (Fin 3)) : Fin 3 → ℝ :=
  (1 / 2 * -(twoBody par (length H R b)).2) • unit H R b +
    ∑ c ∈ (rowOf B b.src).erase b, -endForce par H R b c

theorem hasFDerivAt_swEnergy (hH : H.det ≠ 0) (h : Regular par H R) :
    HasFDerivAt (fun R => swEnergy par H R)
      (∑ b ∈ within H R par.cutoff, pull b (pulled par H R (within H R par.cutoff) b)) R := by
  set B := within H R par.cutoff with hB
  have hpairs : HasFDerivAt (fun R => ∑ b ∈ B, 1 / 2 * (twoBody par (length H R b)).1)
      (∑ b ∈ B, (1 / 2 : ℝ) • pull b ((-(twoBody par (length H R b)).2) • unit H R b)) R :=
    HasFDerivAt.fun_sum fun b hb =>
      (hasFDerivAt_radial H (h.apart b hb) (h.bond hH hb).1).const_mul (1 / 2)
  have htriplets : HasFDerivAt
      (fun R => ∑ a, ∑ b ∈ rowOf B a, ∑ c ∈ (rowOf B a).erase b, 1 / 2 * triplet par H R b c)
      (∑ a, ∑ b ∈ rowOf B a, ∑ c ∈ (rowOf B a).erase b,
        (1 / 2 : ℝ) • (pull b (-endForce par H R b c) + pull c (-endForce par H R c b))) R := by
    refine HasFDerivAt.fun_sum fun a _ => HasFDerivAt.fun_sum fun b hb => HasFDerivAt.fun_sum fun c hc => ?_
    have hbB := (mem_rowOf.mp hb).1
    have hcB := (mem_rowOf.mp (Finset.mem_of_mem_erase hc)).1
    exact (hasFDerivAt_triplet (h.apart b hbB) (h.apart c hcB) (h.bond hH hbB).2
      (h.bond hH hcB).2).const_mul (1 / 2)
  rw [sum_pairs_pull B fun b c => -endForce par H R b c] at htriplets
  have hlocal : (fun R => swEnergy par H R) =ᶠ[nhds R] fun R => swEnergyOver par H R B := by
    filter_upwards [eventually_within_eq hH h.off_cutoff] with R' hR'
    rw [swEnergy, hR']
  refine ((hpairs.fun_add htriplets).congr_of_eventuallyEq hlocal).congr_fderiv ?_
  rw [← Finset.sum_add_distrib]
  refine Finset.sum_congr rfl fun b _ => ?_
  rw [pulled, map_add, mul_smul]
  simp only [map_smul]

end Gradient

section Gather
variable {n : ℕ} {par : SwParams ℝ} {H : Matrix (Fin 3) (Fin 3) ℝ} {R : Places (Fin n) (Fin 3)}
  {t : NeighborTable ℝ} {B : Finset (Bond (Fin n) (Fin 3))} {slot : Bond (Fin n) (Fin 3) → ℕ}

/-- Around a neighbour every entry but the bond itself leads to another atom. -/
theorem sum_other_ends (hfull : Full B)
    (hone : ∀ b ∈ B, ∀ c ∈ B, b.src = c.src → b.dst = c.dst → b = c) {b : Bond (Fin n) (Fin 3)}
    (hb : b ∈ B) (f : Bond (Fin n) (Fin 3) → Fin 3 → ℝ) :
    ∑ c ∈ rowOf B b.dst, (if c.dst = b.src then 0 else f c) = ∑ c ∈ (rowOf B b.dst).erase b.rev, f c := by
  have hself : ∀ c ∈ rowOf B b.dst, (c.dst = b.src ↔ c = b.rev) := by
    intro c hc
    obtain ⟨hcB, hsrc⟩ := mem_rowOf.mp hc
    constructor
    · exact fun hdst => hone c hcB b.rev (hfull b hb) hsrc hdst
    · rintro rfl
      rfl
  rw [Finset.sum_congr rfl fun c hc => if_congr (hself c hc) rfl rfl, Finset.sum_ite,
    Finset.sum_const_zero, zero_add, Finset.filter_ne']

theorem tripletEnergy_comm (par : SwParams ℝ) (u u' : Fin 3 → ℝ) (r r' : ℝ) :
    tripletEnergy par u r u' r' = tripletEnergy par u' r' u r := by
  simp only [tripletEnergy, dotProduct_comm u' u]
  ring

variable (par) in
/-- The centre's part: half of each pair, and every triplet once for both of its ends. -/
theorem centre_eq (h : Carries t H R B slot) (i : Fin n) :
    (t.overRow (i + 1) fun sj =>
      (((0.5 : ℝ) * (twoBody par (t.dist sj)).1,
        fun d => -((twoBody par (t.dist sj)).2 * t.unitVec sj d)) : ℝ × (Fin 3 → ℝ)) +
      accumulate (sj + 1) (t.row (i + 2)) fun sk =>
        (tripletEnergy par (t.unitVec sj) (t.dist sj) (t.unitVec sk) (t.dist sk),
          -endAtomForce par (t.unitVec sj) (t.dist sj) (t.unitVec sk) (t.dist sk) -
            endAtomForce par (t.unitVec sk) (t.dist sk) (t.unitVec sj) (t.dist sj))) =
    ∑ b ∈ rowOf B i, (((1 / 2 * (twoBody par (length H R b)).1,
        (-(twoBody par (length H R b)).2) • unit H R b) : ℝ × (Fin 3 → ℝ)) +
      ∑ c ∈ (rowOf B i).erase b, (1 / 2 * triplet par H R b c, -endForce par H R b c)) := by
  let both (s k : ℕ) : ℝ × (Fin 3 → ℝ) :=
    (1 / 2 * tripletEnergy par (t.unitVec s) (t.dist s) (t.unitVec k) (t.dist k),
      -endAtomForce par (t.unitVec s) (t.dist s) (t.unitVec k) (t.dist k))
  have hboth : ∀ sj sk : ℕ, both sj sk + both sk sj =
      (tripletEnergy par (t.unitVec sj) (t.dist sj) (t.unitVec sk) (t.dist sk),
        -endAtomForce par (t.unitVec sj) (t.dist sj) (t.unitVec sk) (t.dist sk) -
          endAtomForce par (t.unitVec sk) (t.dist sk) (t.unitVec sj) (t.dist sj)) := by
    intro sj sk
    simp only [both, Prod.mk_add_mk]
    rw [tripletEnergy_comm par (t.unitVec sk), ← sub_eq_add_neg]
    congr 1
    ring
  simp only [← hboth]
  rw [NeighborTable.overRow_add, h.pairs i both, h.overRow i, ← Finset.sum_add_distrib]
  refine Finset.sum_congr rfl fun b hb => ?_
  have hbB := (mem_rowOf.mp hb).1
  congr 1
  · rw [h.dist hbB, h.unitVec hbB]
    refine Prod.ext ?_ ?_
    · norm_num
    · funext d
      exact (neg_mul _ _).symm
  · refine Finset.sum_congr rfl fun c hc => ?_
    have hcB := (mem_rowOf.mp (Finset.mem_of_mem_erase hc)).1
    simp only [both, h.unitVec hbB, h.unitVec hcB, h.dist hbB, h.dist hcB]
    rfl

variable (par) in
/-- The end's part: the triplets around each neighbour. -/
theorem ends_eq (h : Carries t H R B slot) (hfull : Full B)
    (hone : ∀ b ∈ B, ∀ c ∈ B, b.src = c.src → b.dst = c.dst → b = c) (i : Fin n) :
    (t.overRow (i + 1) fun sm => t.overRow (t.idx sm) fun sn =>
      if t.idx sn = i + 1 then 0
      else endAtomForce par (t.backVec sm) (t.dist sm) (t.unitVec sn) (t.dist sn)) =
    ∑ b ∈ rowOf B i, ∑ c ∈ (rowOf B b.dst).erase b.rev, endForce par H R b.rev c := by
  rw [h.overRow i]
  refine Finset.sum_congr rfl fun b hb => ?_
  obtain ⟨hbB, hsrc⟩ := mem_rowOf.mp hb
  rw [← sum_other_ends hfull hone hbB, h.idx hbB, h.overRow b.dst]
  refine Finset.sum_congr rfl fun c hc => ?_
  have hcB := (mem_rowOf.mp hc).1
  have hself : t.idx (slot c) = i + 1 ↔ c.dst = b.src := by
    rw [h.idx hcB, hsrc, Nat.add_right_cancel_iff, Fin.val_inj]
  refine if_congr hself rfl ?_
  rw [h.backVec hbB, h.unitVec hcB, h.dist hbB, h.dist hcB, endForce, length_rev]

variable (par) in
/-- The two roles of an atom together gather what the energy pulls at its bonds. -/
theorem atomContribution_eq (h : Carries t H R B slot) (hfull : Full B)
    (hone : ∀ b ∈ B, ∀ c ∈ B, b.src = c.src → b.dst = c.dst → b = c) (i : Fin n) :
    atomContribution par t (i + 1) =
      (∑ b ∈ rowOf B i, (1 / 2 * (twoBody par (length H R b)).1 +
        ∑ c ∈ (rowOf B i).erase b, 1 / 2 * triplet par H R b c), gathered B (pulled par H R B) i) := by
  have hcentre := centre_eq par h i
  have hends := ends_eq par h hfull hone i
  rw [atomContribution]
  refine Prod.ext ?_ ?_
  · refine (congrArg Prod.fst hcentre).trans ?_
    simp only [Prod.fst_sum, Prod.fst_add]
  · refine (congrArg₂ (fun a b => Prod.snd a + b) hcentre hends).trans ?_
    simp only [Prod.snd_sum, Prod.snd_add, gathered, pulled]
    rw [← Finset.sum_add_distrib]
    refine Finset.sum_congr rfl fun b hb => ?_
    rw [(mem_rowOf.mp hb).2, length_rev, unit_rev, Bond.rev_src, Finset.sum_neg_distrib,
      Finset.sum_neg_distrib, smul_neg, mul_smul]
    module

/-- A call that returns zero, whatever the table served before, gives the published energy and forces that
are exactly minus its gradient and add up to zero. -/
theorem sw_conservative {v : Vesin ℝ} (calls : List (TableCall ℝ)) (par : SwParams ℝ)
    (R : Places (Fin n) (Fin 3)) (cell : Fin 3 → Fin 3 → ℝ) (heap : Heap ℝ)
    (hlist : ((table v).after (.fresh v) calls).ReportsFull R cell par.cutoff)
    (hcell : (cellRows cell).det ≠ 0) (hregular : Regular par (cellRows cell) R) :
    let out := (swEnergyForces par ((table v).after (.fresh v) calls) ⟨3, n, R, cell⟩ heap).1
    out.status = 0 → out.energy = swEnergy par (cellRows cell) R ∧
      IsForce (fun R => swEnergy par (cellRows cell) R) out.forces R := by
  intro out hstatus
  obtain ⟨t, slot, hcarries, hkernel⟩ := evaluate_carries hlist hcell
    hregular.off_cutoff (fun e he => by cases he) (fun t e he => by cases he) hstatus
  set B := within (cellRows cell) R par.cutoff with hB
  have hfull : Full B := full_within hcell R par.cutoff
  obtain ⟨henergy, hforces⟩ := Prod.mk.inj (Except.ok.inj hkernel)
  have hatom := atomContribution_eq par hcarries hfull hregular.one_image
  constructor
  · refine henergy.symm.trans ?_
    simp only [hatom]
    rw [swEnergy, swEnergyOver, ← hB, ← sum_rows B, ← Finset.sum_add_distrib]
    exact Finset.sum_congr rfl fun a _ => Finset.sum_add_distrib
  · have hgathered : out.forces = gathered B (pulled par (cellRows cell) R B) := by
      exact hforces.symm.trans (funext fun i => congrArg Prod.snd (hatom i))
    rw [hgathered]
    exact isForce_gathered hfull (hasFDerivAt_swEnergy hcell hregular)

/-- A triangle in a wide cube, on a table that has served two atoms. -/
theorem sw_conservative_trimer :
    let out := (swEnergyForces {} ((table listing).after (.fresh listing) (servedTwo 3))
      ⟨3, 3, trimer, cube 100⟩ emptyHeap).1
    out.energy = swEnergy {} (cellRows (cube 100)) trimer ∧
      IsForce (fun R => swEnergy {} (cellRows (cube 100)) R) out.forces trimer := by
  have hcutoff : (SwParams.cutoff {} : ℝ) = 1.8 * 2.0951 := rfl
  have hcube : (cellRows (cube 100)).det ≠ 0 := det_cube (by norm_num)
  have hwithin : ∀ b ∈ within (cellRows (cube 100)) trimer (SwParams.cutoff {}),
      b.shift = 0 ∧ IsSide (length (cellRows (cube 100)) trimer b) :=
    fun b hb => trimer_within (by rw [hcutoff]; norm_num) hb
  refine sw_conservative (servedTwo 3) {} trimer (cube 100) emptyHeap
    ((serving_servedTwo 3).reportsFull trimer _) hcube ⟨?_, ?_, ?_, ?_⟩
    (listing_evaluate (serving_servedTwo 3) _ _ _ hcube fun t => ⟨_, rfl⟩)
  · exact trimer_off (by rw [hcutoff]; norm_num) (by rw [hcutoff]; norm_num)
  · intro b hb
    linarith [(hwithin b hb).2.bounds.1]
  · intro b hb
    rw [expFloor]
    rcases (hwithin b hb).2 with h | h | h <;> rw [h] <;> norm_num
  · intro b hb c hc hsrc hdst
    exact Bond.ext hsrc hdst ((hwithin b hb).1.trans (hwithin c hc).1.symm)

end Gather
end Rgpot.Fortran.Sw
