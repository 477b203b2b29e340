import Rgpot.Fortran.Gather

/-! The Tersoff bond-order kernel in gather form: three passes over the table, with the reverse of every
bond resolved first. -/
namespace Rgpot.Fortran.Tersoff
open Bonds
open scoped Matrix

/-- `tersoff_params_t`; the defaults are the silicon set. -/
structure TersoffParams (K : Type) [Field K] where
  a : K := 1830.8
  b : K := 471.18
  lambda1 : K := 2.4799
  lambda2 : K := 1.7322
  beta : K := 1.1e-6
  n : K := 0.78734
  c : K := 100390
  d : K := 16.217
  h : K := -0.59825
  r : K := 2.7
  s : K := 3.0
  chi : K := 1.0

section Kernel
variable {K : Type} [Field K] [LinearOrder K] [Elementary K] [Circular K]

def zetaFloor : K := 1.0e-15
def bondMatchTol : K := 1.0e-8

/-- `tersoff_cutoff`. -/
def TersoffParams.cutoff (par : TersoffParams K) : K := par.s

/-- The taper and its slope. -/
def cutoffTaper (par : TersoffParams K) (rr : K) : K × K :=
  if rr ≤ par.r then (1, 0)
  else if rr ≥ par.s then (0, 0)
  else
    let width := par.s - par.r
    let phase := pi * (rr - par.r) / width
    (0.5 + 0.5 * Circular.cos phase, -pi / (2 * width) * Circular.sin phase)

/-- `frep`, `dfrep`, `fatt` and `dfatt`. -/
def pairFunctions (par : TersoffParams K) (rr : K) : K × K × K × K :=
  let frep := par.a * Elementary.exp (-par.lambda1 * rr)
  let fatt := -par.b * Elementary.exp (-par.lambda2 * rr)
  (frep, -par.lambda1 * frep, fatt, -par.lambda2 * fatt)

/-- The angular function and its slope in the cosine. -/
def angular (par : TersoffParams K) (cosine : K) : K × K :=
  let c2 := par.c * par.c
  let d2 := par.d * par.d
  let gap := par.h - cosine
  let denom := d2 + gap * gap
  (1 + c2 / d2 - c2 / denom, -2 * c2 * gap / (denom * denom))

/-- The bond order and its slope. -/
def bondOrder (par : TersoffParams K) (zeta : K) : K × K :=
  if zeta < zetaFloor then (par.chi, 0)
  else
    let bz_n := Elementary.pow (par.beta * zeta) par.n
    let base := 1 + bz_n
    (par.chi / Elementary.pow base (0.5 / par.n),
      -par.chi * 0.5 * Elementary.pow par.beta par.n * Elementary.pow zeta (par.n - 1) /
        Elementary.pow base ((0.5 + par.n) / par.n))

/-- The entry of the neighbour's row with the same bond in the other direction, or zero. -/
def atomReverse (table : NeighborTable K) (i sj : ℕ) : ℕ :=
  let j := table.idx sj
  let back := (List.range' (table.row j) (table.countFor j)).find? fun st =>
    decide (table.idx st = i ∧ ∀ d, ¬ |table.vec st d + table.vec sj d| > bondMatchTol)
  back.getD 0

/-- The coordination sum of the pair at `sj`. -/
def atomZeta (par : TersoffParams K) (table : NeighborTable K) (i sj : ℕ) : K :=
  table.overRow i fun sk =>
    if sk = sj then 0
    else (cutoffTaper par (table.dist sk)).1 * (angular par (table.unitVec sj ⬝ᵥ table.unitVec sk)).1

/-- `e_ij`, `f_ij` and `c_ij`. -/
def pairScalars (par : TersoffParams K) (rij zeta : K) : K × K × K :=
  let (fc, dfc) := cutoffTaper par rij
  let (frep, dfrep, fatt, dfatt) := pairFunctions par rij
  let (bij, dbij) := bondOrder par zeta
  (fc * (frep + bij * fatt), dfc * (frep + bij * fatt) + fc * (dfrep + bij * dfatt), fc * fatt * dbij)

/-- `atom_contribution`. -/
def atomContribution (par : TersoffParams K) (table : NeighborTable K) (e_pair f_rad c_zeta : ℕ → K)
    (rev : ℕ → ℕ) (i : ℕ) : K × (Fin 3 → K) :=
  let owned := table.overRow i fun sj =>
    let rij := table.dist sj
    let u_ij := table.unitVec sj
    let pair : K × (Fin 3 → K) := (0.5 * e_pair sj, fun d => -((f_rad sj + f_rad (rev sj)) * u_ij d))
    let legs : Fin 3 → K := table.overRow i fun sk =>
      if sk = sj then 0
      else
        let rik := table.dist sk
        let u_ik := table.unitVec sk
        let cosine := u_ij ⬝ᵥ u_ik
        let (fc_k, dfc_k) := cutoffTaper par rik
        let (gval, dgval) := angular par cosine
        fun d => -(c_zeta sj * (fc_k * dgval * ((u_ik d - cosine * u_ij d) / rij) + dfc_k * gval * u_ik d +
          fc_k * dgval * ((u_ij d - cosine * u_ik d) / rik)))
    pair + (0, legs)
  let reached := table.overRow i fun sm =>
    let m := table.idx sm
    let rim := table.dist sm
    let u_mi := table.backVec sm
    let back := rev sm
    let c_back := c_zeta back
    let (fc_i, dfc_i) := cutoffTaper par rim
    table.overRow m fun st =>
      if st = back then (0 : Fin 3 → K)
      else
        let u_mt := table.unitVec st
        let cosine := u_mi ⬝ᵥ u_mt
        let (gval, dgval) := angular par cosine
        let (fc_k, _) := cutoffTaper par (table.dist st)
        fun d =>
          let dcos_i := (u_mt d - cosine * u_mi d) / rim
          c_back * fc_k * dgval * dcos_i + c_zeta st * (dfc_i * gval * u_mi d + fc_i * dgval * dcos_i)
  (owned.1, fun d => -0.5 * (owned.2 + reached) d)

/-- `tersoff_energy_forces`. -/
def tersoffEnergyForces {v : Vesin K} (par : TersoffParams K) (t : TableState v) (x : Atoms K)
    (heap : Heap K) : Evaluation K x.natoms × TableState v :=
  evaluate (.ok ()) t x par.cutoff heap fun table =>
    let nentries := table.row (x.natoms + 1) - 1
    let rev := table.perEntry heap.idx (atomReverse table)
    if (List.range' 1 nentries).any fun s => rev s = 0 then
      .error (2, "rgpot_tersoff: a pair in the neighbour table has no reverse")
    else
      let zeta := table.perEntry heap.dist (atomZeta par table)
      let scalars (s : ℕ) := pairScalars par (table.dist s) (zeta s)
      let atom (i : Fin x.natoms) := atomContribution par table (fun s => (scalars s).1)
        (fun s => (scalars s).2.1) (fun s => (scalars s).2.2) rev (i + 1)
      .ok (∑ i, (atom i).1, fun i => (atom i).2)

end Kernel

section Slopes
variable {par : TersoffParams ℝ} {r zeta : ℝ}

/-- The second output of `cutoff_taper` is the slope of the first; at the start of the taper both pieces
are flat. -/
theorem hasDerivAt_cutoffTaper (hr : r < par.s) :
    HasDerivAt (fun r => (cutoffTaper par r).1) (cutoffTaper par r).2 r := by
  set shoulder : ℝ → ℝ := fun r => 0.5 + 0.5 * Real.cos (Real.pi * (r - par.r) / (par.s - par.r)) with hshoulder
  have hpieces : ∀ y, y < par.s → (cutoffTaper par y).1 = if y ≤ par.r then 1 else shoulder y := by
    intro y hy
    rw [cutoffTaper]
    split
    · rfl
    · rw [if_neg (not_le.mpr hy)]
      simp only [pi_real, hshoulder]
      rfl
  have hslope : ∀ y, HasDerivAt shoulder
      (-Real.pi / (2 * (par.s - par.r)) * Real.sin (Real.pi * (y - par.r) / (par.s - par.r))) y := by
    intro y
    have hphase : HasDerivAt (fun r => Real.pi * (r - par.r) / (par.s - par.r))
        (Real.pi / (par.s - par.r)) y := by
      simpa using (((hasDerivAt_id y).sub_const par.r).const_mul Real.pi).div_const (par.s - par.r)
    refine ((hphase.cos.const_mul 0.5).const_add 0.5).congr_deriv ?_
    generalize par.s - par.r = width
    ring
  have hnear : (fun r => (cutoffTaper par r).1) =ᶠ[nhds r] fun y => if y ≤ par.r then 1 else shoulder y := by
    filter_upwards [Iio_mem_nhds hr] with y hy using hpieces y hy
  refine HasDerivAt.congr_of_eventuallyEq ?_ hnear
  rcases lt_trichotomy r par.r with hlt | rfl | hgt
  · rw [cutoffTaper, if_pos hlt.le]
    refine (hasDerivAt_const r (1 : ℝ)).congr_of_eventuallyEq ?_
    filter_upwards [Iio_mem_nhds hlt] with y hy
    exact if_pos (le_of_lt hy)
  · rw [cutoffTaper, if_pos le_rfl]
    have hflat := hslope par.r
    rw [sub_self, mul_zero, zero_div, Real.sin_zero, mul_zero] at hflat
    refine hasDerivAt_joined (hasDerivAt_const par.r 1) hflat ?_
    rw [hshoulder]
    norm_num
  · have hvalue : (cutoffTaper par r).2 =
        -Real.pi / (2 * (par.s - par.r)) * Real.sin (Real.pi * (r - par.r) / (par.s - par.r)) := by
      rw [cutoffTaper, if_neg (not_le.mpr hgt), if_neg (not_le.mpr hr)]
      simp only [pi_real]
      rfl
    rw [hvalue]
    refine (hslope r).congr_of_eventuallyEq ?_
    filter_upwards [Ioi_mem_nhds hgt] with y hy
    exact if_neg (not_le.mpr hy)

theorem hasDerivAt_repulsion (par : TersoffParams ℝ) (r : ℝ) :
    HasDerivAt (fun r => (pairFunctions par r).1) (pairFunctions par r).2.1 r := by
  refine ((((hasDerivAt_id r).const_mul (-par.lambda1)).exp).const_mul par.a).congr_deriv ?_
  simp only [pairFunctions, elementary_exp, id]
  ring

theorem hasDerivAt_attraction (par : TersoffParams ℝ) (r : ℝ) :
    HasDerivAt (fun r => (pairFunctions par r).2.2.1) (pairFunctions par r).2.2.2 r := by
  refine ((((hasDerivAt_id r).const_mul (-par.lambda2)).exp).const_mul (-par.b)).congr_deriv ?_
  simp only [pairFunctions, elementary_exp, id]
  ring

theorem hasDerivAt_angular (hd : par.d ≠ 0) (x : ℝ) :
    HasDerivAt (fun x => (angular par x).1) (angular par x).2 x := by
  have hgap : HasDerivAt (fun x => par.h - x) (-1) x := (hasDerivAt_id x).const_sub par.h
  have hdenom : par.d * par.d + (par.h - x) * (par.h - x) ≠ 0 := by
    have := mul_self_pos.mpr hd
    nlinarith [mul_self_nonneg (par.h - x)]
  have hinv := ((hgap.fun_mul hgap).const_add (par.d * par.d)).fun_inv hdenom
  have hall := (hinv.const_mul (par.c * par.c)).const_sub (1 + par.c * par.c / (par.d * par.d))
  simp only [angular, div_eq_mul_inv (par.c * par.c) (par.d * par.d + _)]
  refine hall.congr_deriv ?_
  field_simp
  ring

/-- Away from the floor; below it the bond order is flat. -/
theorem hasDerivAt_bondOrder (hbeta : 0 < par.beta) (hn : par.n ≠ 0) (hzeta : zeta ≠ zetaFloor) :
    HasDerivAt (fun zeta => (bondOrder par zeta).1) (bondOrder par zeta).2 zeta := by
  rcases lt_or_gt_of_ne hzeta with hlt | hgt
  · rw [bondOrder, if_pos hlt]
    refine (hasDerivAt_const zeta par.chi).congr_of_eventuallyEq ?_
    filter_upwards [Iio_mem_nhds hlt] with y hy
    rw [bondOrder, if_pos (Set.mem_Iio.mp hy)]
  · have hfloor : (0 : ℝ) < zetaFloor := by
      rw [zetaFloor]
      norm_num
    have hpos : 0 < zeta := hfloor.trans hgt
    have hbz : 0 < par.beta * zeta := mul_pos hbeta hpos
    have hbase : 0 < 1 + (par.beta * zeta) ^ par.n := by
      have := Real.rpow_pos_of_pos hbz par.n
      linarith
    have hline : HasDerivAt (fun zeta => par.beta * zeta) par.beta zeta := by
      simpa using (hasDerivAt_id zeta).const_mul par.beta
    have hpow := (hline.rpow_const (p := par.n) (Or.inl hbz.ne')).const_add 1
    have hroot := hpow.rpow_const (p := -(0.5 / par.n)) (Or.inl hbase.ne')
    have hform : (fun zeta => (bondOrder par zeta).1) =ᶠ[nhds zeta]
        fun zeta => par.chi * (1 + (par.beta * zeta) ^ par.n) ^ (-(0.5 / par.n)) := by
      filter_upwards [Ioi_mem_nhds hgt] with y hy
      have hy' : 0 < 1 + (par.beta * y) ^ par.n := by
        have := Real.rpow_pos_of_pos (mul_pos hbeta (hfloor.trans hy)) par.n
        linarith
      rw [bondOrder, if_neg (not_lt.mpr (le_of_lt hy)), Real.rpow_neg hy'.le]
      exact div_eq_mul_inv _ _
    refine ((hroot.const_mul par.chi).congr_of_eventuallyEq hform).congr_deriv ?_
    have hexponent : (0.5 + par.n) / par.n = -(-(0.5 / par.n) - 1) := by
      field_simp
      ring
    have hslope : (bondOrder par zeta).2 = -par.chi * 0.5 * par.beta ^ par.n * zeta ^ (par.n - 1) /
        (1 + (par.beta * zeta) ^ par.n) ^ ((0.5 + par.n) / par.n) := by
      rw [bondOrder, if_neg (not_lt.mpr hgt.le)]
      rfl
    have hsplit : par.beta * (par.beta * zeta) ^ (par.n - 1) = par.beta ^ par.n * zeta ^ (par.n - 1) := by
      rw [Real.mul_rpow hbeta.le hpos.le, ← mul_assoc, ← Real.rpow_one_add' hbeta.le (by simpa using hn)]
      congr 2
      ring
    rw [hslope, hexponent, Real.rpow_neg hbase.le, div_inv_eq_mul, mul_assoc _ (par.beta ^ par.n), ← hsplit]
    field_simp

end Slopes

section Gradient
variable {n : ℕ} (par : TersoffParams ℝ) (H : Matrix (Fin 3) (Fin 3) ℝ) (R : Places (Fin n) (Fin 3))
  (B : Finset (Bond (Fin n) (Fin 3))) (b c : Bond (Fin n) (Fin 3))

/-- The coordination sum of a bond, over the other bonds of its owner. -/
noncomputable def zetaOf : ℝ :=
  ∑ c ∈ (rowOf B b.src).erase b, (cutoffTaper par (length H R c)).1 * (angular par (cosine H R b c)).1

noncomputable def scalarsOf : ℝ × ℝ × ℝ := pairScalars par (length H R b) (zetaOf par H R B b)

/-- The published sum over the directed bonds. -/
noncomputable def tersoffEnergyOver : ℝ := ∑ b ∈ B, 1 / 2 * (scalarsOf par H R B b).1

noncomputable def tersoffEnergy : ℝ := tersoffEnergyOver par H R (within H R par.cutoff)

/-- Positions at which no pair is at the cutoff, no coordination sum at the floor of the bond order, and no
two atoms coincide, in a cell whose lattice vectors are longer than the tolerance of the bond match. -/
structure Regular : Prop where
  off_cutoff : ∀ b : Bond (Fin n) (Fin 3), b.src ≠ b.dst → length H R b ≠ par.cutoff
  apart : ∀ b ∈ within H R par.cutoff, 0 < length H R b
  off_floor : ∀ b ∈ within H R par.cutoff, zetaOf par H R (within H R par.cutoff) b ≠ zetaFloor
  spread : ∀ m : Fin 3 → ℤ, m ≠ 0 → ∃ d, bondMatchTol < |((fun i => (m i : ℝ)) ᵥ* H) d|

/-- What the leg `c` of the pair `b` pulls at the end of `b`. -/
noncomputable def nearPull : Fin 3 → ℝ :=
  ((cutoffTaper par (length H R c)).1 * (angular par (cosine H R b c)).2) • cosineSlope H R b c

/-- What it pulls at its own end. -/
noncomputable def farPull : Fin 3 → ℝ :=
  ((cutoffTaper par (length H R c)).2 * (angular par (cosine H R b c)).1) • unit H R c +
    ((cutoffTaper par (length H R c)).1 * (angular par (cosine H R b c)).2) • cosineSlope H R c b

/-- What the energy pulls at a bond: its own radial term and its legs, and its part as a leg of others. -/
noncomputable def pulled : Fin 3 → ℝ :=
  (1 / 2 * (scalarsOf par H R B b).2.1) • unit H R b +
    ∑ c ∈ (rowOf B b.src).erase b, ((1 / 2 * (scalarsOf par H R B b).2.2) • nearPull par H R b c +
      (1 / 2 * (scalarsOf par H R B c).2.2) • farPull par H R c b)

variable {par H R B b c}

theorem hasFDerivAt_zetaOf (hd : par.d ≠ 0) (hpos : ∀ c ∈ B, 0 < length H R c)
    (hcut : ∀ c ∈ B, length H R c < par.s) (hb : b ∈ B) :
    HasFDerivAt (fun R => zetaOf par H R B b)
      (∑ c ∈ (rowOf B b.src).erase b, (pull b (nearPull par H R b c) + pull c (farPull par H R b c))) R := by
  refine HasFDerivAt.fun_sum fun c hc => ?_
  have hcB := (mem_rowOf.mp (Finset.mem_of_mem_erase hc)).1
  have htaper := hasFDerivAt_radial H (hpos c hcB) (hasDerivAt_cutoffTaper (hcut c hcB))
  have hangle := (hasDerivAt_angular hd (cosine H R b c)).comp_hasFDerivAt R
    (hasFDerivAt_cosine H (hpos b hb) (hpos c hcB))
  refine (htaper.fun_mul hangle).congr_fderiv ?_
  simp only [nearPull, farPull, Function.comp_apply, map_add, map_smul]
  module

/-- A bond's energy: its radial slope at a fixed coordination, and its slope along the coordination. -/
theorem hasFDerivAt_bond (hd : par.d ≠ 0) (hbeta : 0 < par.beta) (hn : par.n ≠ 0)
    (hpos : ∀ c ∈ B, 0 < length H R c) (hcut : ∀ c ∈ B, length H R c < par.s)
    (hzeta : zetaOf par H R B b ≠ zetaFloor) (hb : b ∈ B) :
    HasFDerivAt (fun R => (scalarsOf par H R B b).1)
      (pull b ((scalarsOf par H R B b).2.1 • unit H R b) + (scalarsOf par H R B b).2.2 •
        ∑ c ∈ (rowOf B b.src).erase b, (pull b (nearPull par H R b c) + pull c (farPull par H R b c))) R := by
  have htaper := hasFDerivAt_radial H (hpos b hb) (hasDerivAt_cutoffTaper (hcut b hb))
  have hrep := hasFDerivAt_radial H (hpos b hb) (hasDerivAt_repulsion par _)
  have hatt := hasFDerivAt_radial H (hpos b hb) (hasDerivAt_attraction par _)
  have horder := (hasDerivAt_bondOrder hbeta hn hzeta).comp_hasFDerivAt R
    (hasFDerivAt_zetaOf hd hpos hcut hb)
  refine (htaper.fun_mul (hrep.fun_add (horder.fun_mul hatt))).congr_fderiv ?_
  simp only [scalarsOf, pairScalars, Function.comp_apply, map_smul]
  module

theorem hasFDerivAt_tersoffEnergyOver (hd : par.d ≠ 0) (hbeta : 0 < par.beta) (hn : par.n ≠ 0)
    (hpos : ∀ c ∈ B, 0 < length H R c) (hcut : ∀ c ∈ B, length H R c < par.s)
    (hzeta : ∀ b ∈ B, zetaOf par H R B b ≠ zetaFloor) :
    HasFDerivAt (fun R => tersoffEnergyOver par H R B) (∑ b ∈ B, pull b (pulled par H R B b)) R := by
  have hsum := HasFDerivAt.fun_sum fun b hb =>
    (hasFDerivAt_bond hd hbeta hn hpos hcut (hzeta b hb) hb).const_mul (1 / 2)
  refine hsum.congr_fderiv ?_
  have hlegs := sum_legs_pull B (fun b c => (1 / 2 * (scalarsOf par H R B b).2.2) • nearPull par H R b c)
    fun b c => (1 / 2 * (scalarsOf par H R B b).2.2) • farPull par H R b c
  calc ∑ b ∈ B, (1 / 2 : ℝ) • (pull b ((scalarsOf par H R B b).2.1 • unit H R b) +
        (scalarsOf par H R B b).2.2 • ∑ c ∈ (rowOf B b.src).erase b,
          (pull b (nearPull par H R b c) + pull c (farPull par H R b c)))
      = ∑ b ∈ B, pull b ((1 / 2 * (scalarsOf par H R B b).2.1) • unit H R b) +
        ∑ b ∈ B, ∑ c ∈ (rowOf B b.src).erase b,
          (pull b ((1 / 2 * (scalarsOf par H R B b).2.2) • nearPull par H R b c) +
            pull c ((1 / 2 * (scalarsOf par H R B b).2.2) • farPull par H R b c)) := by
        rw [← Finset.sum_add_distrib]
        refine Finset.sum_congr rfl fun b _ => ?_
        simp only [map_smul, ← smul_add, ← Finset.smul_sum, mul_smul]
    _ = ∑ b ∈ B, pull b (pulled par H R B b) := by
        rw [hlegs, ← Finset.sum_add_distrib]
        exact Finset.sum_congr rfl fun b _ => (map_add _ _ _).symm

end Gradient

section Gather
variable {n : ℕ} {par : TersoffParams ℝ} {H : Matrix (Fin 3) (Fin 3) ℝ} {R : Places (Fin n) (Fin 3)}
  {t : NeighborTable ℝ} {B : Finset (Bond (Fin n) (Fin 3))} {slot : Bond (Fin n) (Fin 3) → ℕ}
  {b c : Bond (Fin n) (Fin 3)}

/-- Of the bonds that lead back only the reverse cancels a bond. -/
theorem cancels_iff (hspread : ∀ m : Fin 3 → ℤ, m ≠ 0 → ∃ d, bondMatchTol < |((fun i => (m i : ℝ)) ᵥ* H) d|)
    (hsrc : c.src = b.dst) (hdst : c.dst = b.src) :
    (∀ d, ¬ |vector H R c d + vector H R b d| > bondMatchTol) ↔ c = b.rev := by
  have hshifts : ∀ d, vector H R c d + vector H R b d =
      ((fun i => (((c.shift + b.shift) i : ℤ) : ℝ)) ᵥ* H) d := by
    intro d
    have hsplit : (fun i => (((c.shift + b.shift) i : ℤ) : ℝ)) =
        (fun i => (c.shift i : ℝ)) + fun i => (b.shift i : ℝ) := by
      funext i
      exact Int.cast_add _ _
    rw [hsplit, Matrix.add_vecMul, vector, vector, hsrc, hdst, Pi.add_apply]
    ring
  constructor
  · intro hclose
    have hshift : c.shift + b.shift = 0 := by
      by_contra hne
      obtain ⟨d, hd⟩ := hspread _ hne
      exact hclose d (hshifts d ▸ hd)
    exact Bond.ext hsrc hdst (eq_neg_of_add_eq_zero_left hshift)
  · rintro rfl d
    rw [vector_rev, Pi.neg_apply, neg_add_cancel, abs_zero, bondMatchTol]
    norm_num

/-- The search stops at the reverse bond. -/
theorem atomReverse_slot (h : Carries t H R B slot) (hfull : Full B)
    (hspread : ∀ m : Fin 3 → ℤ, m ≠ 0 → ∃ d, bondMatchTol < |((fun i => (m i : ℝ)) ᵥ* H) d|) (hb : b ∈ B) :
    atomReverse t (b.src + 1) (slot b) = slot b.rev := by
  have hrev := hfull b hb
  have hmem : ∀ s, s ∈ List.range' (t.row (b.dst + 1)) (t.countFor (b.dst + 1)) ↔
      s ∈ Finset.Ico (t.row (b.dst + 1)) (t.row (b.dst + 2)) := by
    intro s
    have hcount : t.countFor (b.dst + 1) = t.row (b.dst + 2) - t.row (b.dst + 1) := rfl
    rw [List.mem_range'_1, Finset.mem_Ico]
    omega
  have hmatch : ∀ c ∈ rowOf B b.dst, (t.idx (slot c) = b.src + 1 ∧
      ∀ d, ¬ |t.vec (slot c) d + t.vec (slot b) d| > bondMatchTol) ↔ c = b.rev := by
    intro c hc
    obtain ⟨hcB, hsrc⟩ := mem_rowOf.mp hc
    rw [h.idx hcB, h.vec hcB, h.vec hb, Nat.add_right_cancel_iff, Fin.val_inj]
    constructor
    · rintro ⟨hdst, hclose⟩
      exact (cancels_iff hspread hsrc hdst).mp hclose
    · rintro rfl
      exact ⟨rfl, (cancels_iff hspread rfl rfl).mpr rfl⟩
  rw [atomReverse, h.idx hb]
  cases hfind : (List.range' (t.row (b.dst + 1)) (t.countFor (b.dst + 1))).find? fun st =>
      decide (t.idx st = b.src + 1 ∧ ∀ d, ¬ |t.vec st d + t.vec (slot b) d| > bondMatchTol) with
  | none =>
    have hrow : b.rev ∈ rowOf B b.dst := mem_rowOf.mpr ⟨hrev, rfl⟩
    have hmiss := List.find?_eq_none.mp hfind _ ((hmem _).mpr ((h.rows b.dst).mapsTo hrow))
    exact absurd (decide_eq_true ((hmatch _ hrow).mpr rfl)) hmiss
  | some s =>
    obtain ⟨c, hc, rfl⟩ := (h.rows b.dst).surjOn ((hmem s).mp (List.mem_of_find?_eq_some hfind))
    have hc' := List.find?_some hfind
    rw [(hmatch c hc).mp (of_decide_eq_true hc'), Option.getD_some]

theorem atomZeta_slot (h : Carries t H R B slot) (hb : b ∈ B) :
    atomZeta par t (b.src + 1) (slot b) = zetaOf par H R B b := by
  rw [atomZeta, h.overRow_others (mem_rowOf.mpr ⟨hb, rfl⟩)]
  refine Finset.sum_congr rfl fun c hc => ?_
  have hcB := (mem_rowOf.mp (Finset.mem_of_mem_erase hc)).1
  rw [h.dist hcB, h.unitVec hb, h.unitVec hcB, cosine]

/-- The gather in the order of the source: a pair gives its owner what its legs take from both ends. -/
theorem gathered_pulled (B : Finset (Bond (Fin n) (Fin 3))) (i : Fin n) :
    (-(0.5 : ℝ)) • (∑ b ∈ rowOf B i,
        (-((scalarsOf par H R B b).2.1 + (scalarsOf par H R B b.rev).2.1) • unit H R b -
          ∑ c ∈ (rowOf B i).erase b,
            (scalarsOf par H R B b).2.2 • (nearPull par H R b c + farPull par H R b c)) +
        ∑ b ∈ rowOf B i, ∑ c ∈ (rowOf B b.dst).erase b.rev,
          ((scalarsOf par H R B b.rev).2.2 • nearPull par H R b.rev c +
            (scalarsOf par H R B c).2.2 • farPull par H R c b.rev)) =
      gathered B (pulled par H R B) i := by
  have hswap := sum_swap (rowOf B i) fun b c => (1 / 2 * (scalarsOf par H R B b).2.2) • farPull par H R b c
  have hhalf : (-(0.5 : ℝ)) = -(1 / 2) := by norm_num
  have hown : ∑ b ∈ rowOf B i, ∑ c ∈ (rowOf B i).erase b,
      ((1 / 2 * (scalarsOf par H R B b).2.2) • nearPull par H R b c +
        (1 / 2 * (scalarsOf par H R B c).2.2) • farPull par H R c b) =
      ∑ b ∈ rowOf B i, ∑ c ∈ (rowOf B i).erase b, (1 / 2 : ℝ) •
        (scalarsOf par H R B b).2.2 • (nearPull par H R b c + farPull par H R b c) := by
    simp only [Finset.sum_add_distrib, hswap, smul_add, smul_smul]
  have hpulled : ∀ b ∈ rowOf B i, pulled par H R B b - pulled par H R B b.rev =
      (1 / 2 * ((scalarsOf par H R B b).2.1 + (scalarsOf par H R B b.rev).2.1)) • unit H R b +
        ∑ c ∈ (rowOf B i).erase b, ((1 / 2 * (scalarsOf par H R B b).2.2) • nearPull par H R b c +
          (1 / 2 * (scalarsOf par H R B c).2.2) • farPull par H R c b) -
        ∑ c ∈ (rowOf B b.dst).erase b.rev, (1 / 2 : ℝ) •
          ((scalarsOf par H R B b.rev).2.2 • nearPull par H R b.rev c +
            (scalarsOf par H R B c).2.2 • farPull par H R c b.rev) := by
    intro b hb
    rw [pulled, pulled, (mem_rowOf.mp hb).2, unit_rev, Bond.rev_src]
    simp only [smul_add, smul_smul]
    module
  rw [gathered, Finset.sum_congr rfl hpulled, Finset.sum_sub_distrib, Finset.sum_sub_distrib,
    Finset.sum_add_distrib, hown, hhalf]
  simp only [← Finset.smul_sum, neg_smul, mul_smul, Finset.sum_neg_distrib]
  module

section Roles
variable (h : Carries t H R B slot) (hfull : Full B) {e_pair f_rad c_zeta : ℕ → ℝ} {rev : ℕ → ℕ}
  (hpair : ∀ b ∈ B, e_pair (slot b) = (scalarsOf par H R B b).1)
  (hrad : ∀ b ∈ B, f_rad (slot b) = (scalarsOf par H R B b).2.1)
  (hzeta : ∀ b ∈ B, c_zeta (slot b) = (scalarsOf par H R B b).2.2)
  (hrev : ∀ b ∈ B, rev (slot b) = slot b.rev)
include h hfull hpair hrad hzeta hrev

/-- Role one: the bonds an atom owns, with their legs. -/
theorem owned_eq (i : Fin n) :
    (t.overRow (i + 1) fun sj =>
      (((0.5 : ℝ) * e_pair sj, fun d => -((f_rad sj + f_rad (rev sj)) * t.unitVec sj d)) : ℝ × (Fin 3 → ℝ)) +
      (0, t.overRow (i + 1) fun sk =>
        if sk = sj then (0 : Fin 3 → ℝ)
        else fun d => -(c_zeta sj * ((cutoffTaper par (t.dist sk)).1 *
          (angular par (t.unitVec sj ⬝ᵥ t.unitVec sk)).2 *
            ((t.unitVec sk d - (t.unitVec sj ⬝ᵥ t.unitVec sk) * t.unitVec sj d) / t.dist sj) +
          (cutoffTaper par (t.dist sk)).2 * (angular par (t.unitVec sj ⬝ᵥ t.unitVec sk)).1 * t.unitVec sk d +
          (cutoffTaper par (t.dist sk)).1 * (angular par (t.unitVec sj ⬝ᵥ t.unitVec sk)).2 *
            ((t.unitVec sj d - (t.unitVec sj ⬝ᵥ t.unitVec sk) * t.unitVec sk d) / t.dist sk))))) =
    ∑ b ∈ rowOf B i, ((1 / 2 * (scalarsOf par H R B b).1,
      -((scalarsOf par H R B b).2.1 + (scalarsOf par H R B b.rev).2.1) • unit H R b -
        ∑ c ∈ (rowOf B i).erase b,
          (scalarsOf par H R B b).2.2 • (nearPull par H R b c + farPull par H R b c)) : ℝ × (Fin 3 → ℝ)) := by
  rw [h.overRow i]
  refine Finset.sum_congr rfl fun b hb => ?_
  have hbB := (mem_rowOf.mp hb).1
  have hlegs : ∀ c ∈ (rowOf B i).erase b, (fun d => -(c_zeta (slot b) * ((cutoffTaper par (t.dist (slot c))).1 *
      (angular par (t.unitVec (slot b) ⬝ᵥ t.unitVec (slot c))).2 *
        ((t.unitVec (slot c) d - (t.unitVec (slot b) ⬝ᵥ t.unitVec (slot c)) * t.unitVec (slot b) d) /
          t.dist (slot b)) +
      (cutoffTaper par (t.dist (slot c))).2 * (angular par (t.unitVec (slot b) ⬝ᵥ t.unitVec (slot c))).1 *
        t.unitVec (slot c) d +
      (cutoffTaper par (t.dist (slot c))).1 * (angular par (t.unitVec (slot b) ⬝ᵥ t.unitVec (slot c))).2 *
        ((t.unitVec (slot b) d - (t.unitVec (slot b) ⬝ᵥ t.unitVec (slot c)) * t.unitVec (slot c) d) /
          t.dist (slot c))))) =
      -((scalarsOf par H R B b).2.2 • (nearPull par H R b c + farPull par H R b c)) := by
    intro c hc
    have hcB := (mem_rowOf.mp (Finset.mem_of_mem_erase hc)).1
    funext d
    rw [hzeta b hbB, h.dist hbB, h.dist hcB, h.unitVec hbB, h.unitVec hcB]
    simp only [nearPull, farPull, cosineSlope, cosine_comm H R c b, Pi.neg_apply, Pi.smul_apply, Pi.add_apply,
      Pi.sub_apply, smul_eq_mul]
    rw [← cosine]
    ring
  rw [h.overRow_others hb, Finset.sum_congr rfl hlegs, hpair b hbB, hrev b hbB, hrad b hbB,
    hrad _ (hfull b hbB), h.unitVec hbB]
  refine Prod.ext ?_ ?_
  · simp only [Prod.fst_add, add_zero]
    norm_num
  · rw [Prod.snd_add, Finset.sum_neg_distrib, ← sub_eq_add_neg]
    congr 1
    funext d
    exact (neg_mul _ _).symm

omit hpair hrad in
/-- Roles two and three: the bonds a neighbour owns, for which the atom is the end or a leg. -/
theorem reached_eq (i : Fin n) :
    (t.overRow (i + 1) fun sm => t.overRow (t.idx sm) fun st =>
      if st = rev sm then (0 : Fin 3 → ℝ)
      else fun d => c_zeta (rev sm) * (cutoffTaper par (t.dist st)).1 *
          (angular par (t.backVec sm ⬝ᵥ t.unitVec st)).2 *
          ((t.unitVec st d - (t.backVec sm ⬝ᵥ t.unitVec st) * t.backVec sm d) / t.dist sm) +
        c_zeta st * ((cutoffTaper par (t.dist sm)).2 * (angular par (t.backVec sm ⬝ᵥ t.unitVec st)).1 *
            t.backVec sm d +
          (cutoffTaper par (t.dist sm)).1 * (angular par (t.backVec sm ⬝ᵥ t.unitVec st)).2 *
            ((t.unitVec st d - (t.backVec sm ⬝ᵥ t.unitVec st) * t.backVec sm d) / t.dist sm))) =
    ∑ b ∈ rowOf B i, ∑ c ∈ (rowOf B b.dst).erase b.rev,
      ((scalarsOf par H R B b.rev).2.2 • nearPull par H R b.rev c +
        (scalarsOf par H R B c).2.2 • farPull par H R c b.rev) := by
  rw [h.overRow i]
  refine Finset.sum_congr rfl fun b hb => ?_
  have hbB := (mem_rowOf.mp hb).1
  have hrow : b.rev ∈ rowOf B b.dst := mem_rowOf.mpr ⟨hfull b hbB, rfl⟩
  rw [h.idx hbB, hrev b hbB, h.overRow_others hrow]
  refine Finset.sum_congr rfl fun c hc => ?_
  have hcB := (mem_rowOf.mp (Finset.mem_of_mem_erase hc)).1
  funext d
  rw [hzeta c hcB, hzeta _ (hfull b hbB), h.dist hbB, h.dist hcB, h.backVec hbB, h.unitVec hcB,
    ← length_rev H R b]
  simp only [nearPull, farPull, cosineSlope, cosine_comm H R c b.rev, Pi.smul_apply, Pi.add_apply,
    Pi.sub_apply, smul_eq_mul]
  rw [← cosine]
  ring

/-- The three roles of an atom together gather what the energy pulls at its bonds. -/
theorem atomContribution_eq (i : Fin n) : atomContribution par t e_pair f_rad c_zeta rev (i + 1) =
      (∑ b ∈ rowOf B i, 1 / 2 * (scalarsOf par H R B b).1, gathered B (pulled par H R B) i) := by
  have howned := owned_eq h hfull hpair hrad hzeta hrev i
  have hreached := reached_eq h hfull hzeta hrev i
  rw [atomContribution]
  refine Prod.ext ?_ ?_
  · refine (congrArg Prod.fst howned).trans ?_
    simp only [Prod.fst_sum]
  · funext d
    refine (congrArg₂ (fun p q => -(0.5 : ℝ) * (Prod.snd p + q) d) howned hreached).trans ?_
    rw [← gathered_pulled B i]
    simp only [Prod.snd_sum, Pi.smul_apply, smul_eq_mul]

end Roles

/-- No bond of a full table is without its reverse. -/
theorem no_missing_reverse (h : Carries t H R B slot) (hfull : Full B)
    (hspread : ∀ m : Fin 3 → ℤ, m ≠ 0 → ∃ d, bondMatchTol < |((fun i => (m i : ℝ)) ᵥ* H) d|)
    (init : ℕ → ℕ) :
    ¬ ((List.range' 1 (t.row (n + 1) - 1)).any fun s => t.perEntry init (atomReverse t) s = 0) = true := by
  rw [List.any_eq_true]
  rintro ⟨s, hs, hzero⟩
  rw [List.mem_range'_1] at hs
  obtain ⟨b, hb, rfl⟩ := h.exists_slot (show 1 ≤ s by omega) (by omega)
  have hslot := h.one_le_slot (hfull b hb)
  rw [decide_eq_true_eq, h.perEntry _ _ hb, atomReverse_slot h hfull hspread hb] at hzero
  omega

/-- A call adds no error of its own to those of the build. When it returns zero, whatever the table served
before, it gives the published energy and forces that are exactly minus its gradient and add up to zero. -/
theorem tersoff_conservative {v : Vesin ℝ} (calls : List (TableCall ℝ)) (par : TersoffParams ℝ)
    (R : Places (Fin n) (Fin 3)) (cell : Fin 3 → Fin 3 → ℝ) (heap : Heap ℝ)
    (hlist : ((table v).after (.fresh v) calls).ReportsFull R cell par.cutoff)
    (hcell : (cellRows cell).det ≠ 0) (hd : par.d ≠ 0) (hbeta : 0 < par.beta) (hn : par.n ≠ 0)
    (hregular : Regular par (cellRows cell) R) :
    let t := (table v).after (.fresh v) calls
    let out := (tersoffEnergyForces par t ⟨3, n, R, cell⟩ heap).1
    out.status = (t.neighborTableBuild ⟨3, n, R, cell, par.cutoff, none, none⟩ heap).1.1 ∧
    (out.status = 0 → out.energy = tersoffEnergy par (cellRows cell) R ∧
      IsForce (fun R => tersoffEnergy par (cellRows cell) R) out.forces R) := by
  intro t out
  set B := within (cellRows cell) R par.cutoff with hB
  have hfull : Full B := full_within hcell R par.cutoff
  constructor
  · refine evaluate_accepts hlist hcell hregular.off_cutoff fun t slot hcarries => ?_
    rw [if_neg (no_missing_reverse hcarries hfull hregular.spread heap.idx)]
    exact ⟨_, rfl⟩
  · intro hstatus
    obtain ⟨t, slot, hcarries, hkernel⟩ := evaluate_carries hlist hcell
      hregular.off_cutoff (fun e he => by cases he)
      (fun t e he => by dsimp only at he; split at he <;> cases he; decide) hstatus
    rw [if_neg (no_missing_reverse hcarries hfull hregular.spread heap.idx)] at hkernel
    obtain ⟨henergy, hforces⟩ := Prod.mk.inj (Except.ok.inj hkernel)
    let scalars : ℕ → ℝ × ℝ × ℝ := fun s => pairScalars par (t.dist s) (t.perEntry heap.dist (atomZeta par t) s)
    have hscalars : ∀ b ∈ B, scalars (slot b) = scalarsOf par (cellRows cell) R B b := by
      intro b hb
      simp only [scalars]
      rw [hcarries.dist hb, hcarries.perEntry _ _ hb, atomZeta_slot hcarries hb, scalarsOf]
    have hrev : ∀ b ∈ B, t.perEntry heap.idx (atomReverse t) (slot b) = slot b.rev := by
      intro b hb
      rw [hcarries.perEntry _ _ hb, atomReverse_slot hcarries hfull hregular.spread hb]
    have hatom (i : Fin n) : atomContribution par t (fun s => (scalars s).1) (fun s => (scalars s).2.1)
        (fun s => (scalars s).2.2) (t.perEntry heap.idx (atomReverse t)) (i + 1) = _ :=
      atomContribution_eq hcarries hfull (fun b hb => congrArg (·.1) (hscalars b hb))
        (fun b hb => congrArg (·.2.1) (hscalars b hb)) (fun b hb => congrArg (·.2.2) (hscalars b hb)) hrev i
    constructor
    · refine henergy.symm.trans ((Finset.sum_congr rfl fun i _ => congrArg Prod.fst (hatom i)).trans ?_)
      simp only
      rw [sum_rows B, tersoffEnergy, tersoffEnergyOver]
    · have hlocal : (fun R => tersoffEnergy par (cellRows cell) R) =ᶠ[nhds R]
          fun R => tersoffEnergyOver par (cellRows cell) R B := by
        filter_upwards [eventually_within_eq hcell hregular.off_cutoff] with R' hR'
        rw [tersoffEnergy, hR']
      have hgradient := hasFDerivAt_tersoffEnergyOver (B := B) hd hbeta hn hregular.apart
        (fun c hc => ((mem_within hcell).mp hc).2) hregular.off_floor
      exact ((isForce_gathered hfull hgradient).congr hlocal).of_eq
        (hforces.symm.trans (funext fun i => congrArg Prod.snd (hatom i)))

theorem one_le_angular (par : TersoffParams ℝ) (hd : par.d ≠ 0) (x : ℝ) : 1 ≤ (angular par x).1 := by
  have hd2 : 0 < par.d * par.d := mul_self_pos.mpr hd
  have hle : par.c * par.c / (par.d * par.d + (par.h - x) * (par.h - x)) ≤
      par.c * par.c / (par.d * par.d) :=
    div_le_div_of_nonneg_left (mul_self_nonneg _) hd2 (le_add_of_nonneg_right (mul_self_nonneg _))
  simp only [angular]
  linarith

/-- The long side is in the taper, two thirds of the way. -/
theorem quarter_le_taper {r : ℝ} (h : IsSide r) : 1 / 4 ≤ (cutoffTaper ({} : TersoffParams ℝ) r).1 := by
  have hlong : (cutoffTaper ({} : TersoffParams ℝ) 2.9).1 = 1 / 4 := by
    have hphase : Real.pi * (2.9 - 2.7) / (3.0 - 2.7) = Real.pi - Real.pi / 3 := by
      norm_num
      ring
    have hcos : Real.cos (Real.pi * (2.9 - 2.7) / (3.0 - 2.7)) = -(1 / 2) := by
      rw [hphase, Real.cos_pi_sub, Real.cos_pi_div_three]
    rw [cutoffTaper, if_neg (by norm_num), if_neg (by norm_num)]
    simp only [pi_real]
    change 0.5 + 0.5 * Real.cos (Real.pi * (2.9 - 2.7) / (3.0 - 2.7)) = 1 / 4
    rw [hcos]
    norm_num
  rcases h with rfl | rfl | rfl
  · rw [cutoffTaper, if_pos (by norm_num)]
    norm_num
  · rw [cutoffTaper, if_pos (by norm_num)]
    norm_num
  · exact hlong.ge

/-- Every bond of the triangle has another one at its atom. -/
theorem quarter_le_zeta (b : Bond (Fin 3) (Fin 3)) :
    1 / 4 ≤ zetaOf {} (cellRows (cube 100)) trimer (within (cellRows (cube 100)) trimer 3) b := by
  have hcube : (cellRows (cube 100)).det ≠ 0 := det_cube (by norm_num)
  have hterm : ∀ c ∈ (rowOf (within (cellRows (cube 100)) trimer 3) b.src).erase b,
      1 / 4 ≤ (cutoffTaper ({} : TersoffParams ℝ) (length (cellRows (cube 100)) trimer c)).1 *
        (angular ({} : TersoffParams ℝ) (cosine (cellRows (cube 100)) trimer b c)).1 := by
    intro c hc
    have hside := (trimer_within (by norm_num) (mem_rowOf.mp (Finset.mem_of_mem_erase hc)).1).2
    have htaper := quarter_le_taper hside
    have hangular := one_le_angular {} (by norm_num) (cosine (cellRows (cube 100)) trimer b c)
    nlinarith
  obtain ⟨k, hsrc, hdst⟩ : ∃ k : Fin 3, k ≠ b.src ∧ k ≠ b.dst := by
    generalize b.src = i
    generalize b.dst = j
    revert i j
    decide
  have hmem : (⟨b.src, k, 0⟩ : Bond (Fin 3) (Fin 3)) ∈
      (rowOf (within (cellRows (cube 100)) trimer 3) b.src).erase b := by
    refine Finset.mem_erase.mpr ⟨fun h => hdst (congrArg Bond.dst h), mem_rowOf.mpr ⟨?_, rfl⟩⟩
    refine (mem_within hcube).mpr ⟨hsrc.symm, ?_⟩
    exact (trimer_length hsrc.symm rfl).bounds.2.trans_lt (by norm_num)
  exact (hterm _ hmem).trans (Finset.single_le_sum
    (f := fun c => (cutoffTaper ({} : TersoffParams ℝ) (length (cellRows (cube 100)) trimer c)).1 *
      (angular ({} : TersoffParams ℝ) (cosine (cellRows (cube 100)) trimer b c)).1)
    (fun c hc => le_trans (by norm_num) (hterm c hc)) hmem)

/-- A triangle in a wide cube, on a table that has served two atoms; its long side is in the taper. -/
theorem tersoff_conservative_trimer :
    let out := (tersoffEnergyForces {} ((table listing).after (.fresh listing) (servedTwo 3))
      ⟨3, 3, trimer, cube 100⟩ emptyHeap).1
    out.energy = tersoffEnergy {} (cellRows (cube 100)) trimer ∧
      IsForce (fun R => tersoffEnergy {} (cellRows (cube 100)) R) out.forces trimer := by
  have hcutoff : (TersoffParams.cutoff {} : ℝ) = 3 := by norm_num [TersoffParams.cutoff]
  have hcube : (cellRows (cube 100)).det ≠ 0 := det_cube (by norm_num)
  have hregular : Regular {} (cellRows (cube 100)) trimer := by
    refine ⟨?_, fun b hb => ?_, fun b hb => ?_, fun m hm => ?_⟩
    · exact trimer_off (by rw [hcutoff]; norm_num) (by rw [hcutoff]; norm_num)
    · linarith [(trimer_within (by rw [hcutoff]; norm_num) hb).2.bounds.1]
    · rw [hcutoff]
      refine (lt_of_lt_of_le ?_ (quarter_le_zeta b)).ne'
      norm_num [zetaFloor]
    · obtain ⟨d, hd⟩ := Function.ne_iff.mp hm
      refine ⟨d, ?_⟩
      have hone : (1 : ℝ) ≤ |(m d : ℝ)| := by exact_mod_cast Int.one_le_abs hd
      have hentry : ((fun i => (m i : ℝ)) ᵥ* cellRows (cube 100)) d = m d * 100 := by
        simp [Matrix.vecMul, dotProduct, cellRows, cube]
      rw [hentry, abs_mul, bondMatchTol, abs_of_pos (show (0 : ℝ) < 100 by norm_num)]
      linarith
  obtain ⟨hstatus, hforce⟩ := tersoff_conservative (servedTwo 3) {} trimer (cube 100) emptyHeap
    ((serving_servedTwo 3).reportsFull trimer _) hcube (by norm_num) (by norm_num) (by norm_num)
    hregular
  exact hforce (hstatus.trans (congrArg Prod.fst
    (listing_status (serving_servedTwo 3) _ _ _ hcube)))

end Gather
end Rgpot.Fortran.Tersoff
