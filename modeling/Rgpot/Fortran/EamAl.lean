import Rgpot.Fortran.Gather

/-! Embedded-atom aluminium in gather form: powers by repeated squaring, the embedding in Horner form, and
forces that are exactly minus the gradient. -/
namespace Rgpot.Fortran.EamAl
open Bonds OutwardRoot

/-- `eam_al_params_t`; the defaults are the aluminium set. -/
structure EamAlParams (K : Type) [Field K] where
  g_transform : K := -0.60647886749203
  pair_amp_a : K := 2294.3609145535
  pair_decay_a : K := 3.0205380362464
  pair_amp_b : K := -192.06894637533
  pair_decay_b : K := 1.5102690181232
  density_scale : K := 0.87928364657088
  density_decay_a : K := 3.3068828537934
  density_decay_b : K := 6.6137657075868
  density_weight_b : K := 512
  density_power : ℤ := 6
  embed_coeff : Fin 8 → K :=
    ![4.4572157051836, 193.21775368064, -1173.6502684704, 4203.3500116196, -8785.1680280827,
      10632.994102532, -6921.0410455328, 1875.2698365752]
  rcut : K := 7.1

section Kernel
variable {K : Type} [Field K] [LinearOrder K] [Elementary K] [OutwardRoot K]

/-- `eam_al_cutoff`. -/
def EamAlParams.cutoff (par : EamAlParams K) : K := par.rcut

def truncationRadius (par : EamAlParams K) : K := sqrt 0.9999 * par.rcut

def pairShape (par : EamAlParams K) (r : K) : K :=
  par.pair_amp_a * Elementary.exp (-par.pair_decay_a * r) +
    par.pair_amp_b * Elementary.exp (-par.pair_decay_b * r)

def densityShape (par : EamAlParams K) (r : K) : K :=
  r ^ par.density_power * (Elementary.exp (-par.density_decay_a * r) +
    par.density_weight_b * Elementary.exp (-par.density_decay_b * r))

/-- The loop of `ipow`; its exponent is positive as long as it runs. -/
def ipowLoop (y base : K) (e : ℕ) : K :=
  if e > 0 then ipowLoop (if e % 2 = 1 then y * base else y) (base * base) (e / 2) else y
termination_by e
decreasing_by omega

def ipow (x : K) (n : ℤ) : K := ipowLoop 1 x n.toNat

/-- `F(rho)` and `F'(rho)`. -/
def embedHorner (par : EamAlParams K) (rho : K) : K × K :=
  let (p, dp) := [6, 5, 4, 3, 2, 1, 0].foldl
    (fun (p, dp) k => (p * rho + par.embed_coeff k, dp * rho + p)) (par.embed_coeff 7, 0)
  (rho * (par.g_transform + p), par.g_transform + p + rho * dp)

/-- `rho(r)` and `rho'(r)` of one entry, zero past the truncation radius. -/
def entryDensity (par : EamAlParams K) (rt dens_shift r : K) : K × K :=
  if r ≥ rt then (0, 0)
  else
    let ea := Elementary.exp (-par.density_decay_a * r)
    let eb := par.density_weight_b * Elementary.exp (-par.density_decay_b * r)
    let rpm1 := ipow r (par.density_power - 1)
    let rp := rpm1 * r
    (par.density_scale * (rp * (ea + eb) - dens_shift),
      par.density_scale * (par.density_power * rpm1 * (ea + eb) -
        rp * (par.density_decay_a * ea + par.density_decay_b * eb)))

/-- The sum of `atom_density`. -/
def atomDensity (table : NeighborTable K) (rt : K) (dens : ℕ → K) (i : ℕ) : K :=
  table.overRow i fun s => if table.dist s ≥ rt then 0 else dens s

/-- `atom_contribution`. -/
def atomContribution (par : EamAlParams K) (table : NeighborTable K) (rt pair_shift : K)
    (dens ddens dembed : ℕ → K) (i : ℕ) : K × (Fin 3 → K) :=
  table.overRow i fun s =>
    let r := table.dist s
    if r ≥ rt then 0
    else
      let j := table.idx s
      let pa := par.pair_amp_a * Elementary.exp (-par.pair_decay_a * r)
      let pb := par.pair_amp_b * Elementary.exp (-par.pair_decay_b * r)
      let phi := pa + pb - pair_shift - 2 * par.g_transform * dens s
      let dphi := -(par.pair_decay_a * pa + par.pair_decay_b * pb) - 2 * par.g_transform * ddens s
      let dedr := dphi + (dembed i + dembed j) * ddens s
      (0.5 * phi, fun d => dedr * table.unitVec s d)

/-- `eam_al_energy_forces`; the arrays over entries and atoms count from one. -/
def eamAlEnergyForces {v : Vesin K} (par : EamAlParams K) (t : TableState v) (x : Atoms K)
    (heap : Heap K) : Evaluation K x.natoms × TableState v :=
  evaluate (.ok ()) t x par.cutoff heap fun table =>
    let rt := truncationRadius par
    let pair_shift := pairShape par par.rcut
    let dens_shift := densityShape par par.rcut
    let dens := table.perEntry heap.dist fun _ s => (entryDensity par rt dens_shift (table.dist s)).1
    let ddens := table.perEntry heap.dist fun _ s => (entryDensity par rt dens_shift (table.dist s)).2
    let rho := atomDensity table rt dens
    let embed (i : ℕ) := embedHorner par (rho i)
    let atom (i : Fin x.natoms) :=
      atomContribution par table rt pair_shift dens ddens (fun i => (embed i).2) (i + 1)
    .ok (∑ i, (atom i).1 + ∑ i : Fin x.natoms, (embed (i + 1)).1, fun i => (atom i).2)

end Kernel

section Slopes
variable {par : EamAlParams ℝ}

theorem ipowLoop_eq (y base : ℝ) (e : ℕ) : ipowLoop y base e = y * base ^ e := by
  induction e using Nat.strong_induction_on generalizing y base with
  | _ e ih =>
    rw [ipowLoop]
    split
    · rename_i hpos
      rw [ih (e / 2) (by omega)]
      rcases Nat.even_or_odd' e with ⟨m, rfl | rfl⟩
      · rw [if_neg (by omega), Nat.mul_div_cancel_left m two_pos, pow_mul, sq]
      · rw [if_pos (by omega), show (2 * m + 1) / 2 = m by omega, pow_succ, pow_mul, sq]
        ring
    · rename_i hzero
      rw [Nat.eq_zero_of_not_pos hzero, pow_zero, mul_one]

/-- Repeated squaring is the power. -/
theorem ipow_eq (x : ℝ) (n : ℤ) : ipow x n = x ^ n.toNat := by
  rw [ipow, ipowLoop_eq, one_mul]

/-- One round of Horner's scheme keeps the second value the slope of the first. -/
theorem hasDerivAt_horner (c : Fin 8 → ℝ) (ks : List (Fin 8)) {p q : ℝ → ℝ} {x : ℝ}
    (h : HasDerivAt p (q x) x) :
    HasDerivAt (fun x => (ks.foldl (fun (s : ℝ × ℝ) k => (s.1 * x + c k, s.2 * x + s.1)) (p x, q x)).1)
      (ks.foldl (fun (s : ℝ × ℝ) k => (s.1 * x + c k, s.2 * x + s.1)) (p x, q x)).2 x := by
  induction ks generalizing p q with
  | nil => exact h
  | cons k ks ih =>
    refine ih (p := fun x => p x * x + c k) (q := fun x => q x * x + p x) ?_
    have hstep := (h.fun_mul (hasDerivAt_id' x)).add_const (c k)
    rwa [mul_one] at hstep

theorem hasDerivAt_embedHorner (rho : ℝ) :
    HasDerivAt (fun rho => (embedHorner par rho).1) (embedHorner par rho).2 rho := by
  have hp := hasDerivAt_horner par.embed_coeff [6, 5, 4, 3, 2, 1, 0] (x := rho)
    (p := fun _ => par.embed_coeff 7) (q := fun _ => 0) (hasDerivAt_const rho _)
  refine ((hasDerivAt_id' rho).fun_mul (hp.const_add par.g_transform)).congr_deriv ?_
  rw [one_mul]
  rfl

theorem hasDerivAt_decay (k r : ℝ) :
    HasDerivAt (fun r => Real.exp (-k * r)) (-(k * Real.exp (-k * r))) r := by
  have hline : HasDerivAt (fun r => -k * r) (-k) r := by
    simpa using (hasDerivAt_id r).const_mul (-k)
  refine hline.exp.congr_deriv ?_
  ring

variable {r rt : ℝ}

theorem hasDerivAt_entryDensity (shift : ℝ) (hpower : 1 ≤ par.density_power) (hr : r ≠ rt) :
    HasDerivAt (fun r => (entryDensity par rt shift r).1) (entryDensity par rt shift r).2 r := by
  obtain ⟨m, hm⟩ := Int.eq_ofNat_of_zero_le (show 0 ≤ par.density_power - 1 by omega)
  have hpow : HasDerivAt (fun r => ipow r (par.density_power - 1) * r)
      (par.density_power * ipow r (par.density_power - 1)) r := by
    have hcast : (par.density_power : ℝ) = (m : ℝ) + 1 := by
      have : par.density_power = (m : ℤ) + 1 := by omega
      exact_mod_cast congrArg (Int.cast : ℤ → ℝ) this
    simp only [ipow_eq, hm, Int.toNat_natCast, ← pow_succ, hcast]
    simpa using hasDerivAt_pow (m + 1) r
  have hsum := (hasDerivAt_decay par.density_decay_a r).fun_add
    ((hasDerivAt_decay par.density_decay_b r).const_mul par.density_weight_b)
  have hall := ((hpow.fun_mul hsum).sub_const shift).const_mul par.density_scale
  have hform : ∀ r, entryDensity par rt shift r =
      (if r ≥ rt then 0 else par.density_scale * (ipow r (par.density_power - 1) * r *
          (Real.exp (-par.density_decay_a * r) + par.density_weight_b * Real.exp (-par.density_decay_b * r)) -
            shift),
        if r ≥ rt then 0 else par.density_scale *
          (par.density_power * ipow r (par.density_power - 1) *
            (Real.exp (-par.density_decay_a * r) + par.density_weight_b * Real.exp (-par.density_decay_b * r)) -
          ipow r (par.density_power - 1) * r * (par.density_decay_a * Real.exp (-par.density_decay_a * r) +
            par.density_decay_b * (par.density_weight_b * Real.exp (-par.density_decay_b * r))))) := by
    intro r
    rw [entryDensity]
    split
    · rfl
    · rfl
  simp only [hform]
  refine hasDerivAt_cut hr fun _ => hall.congr_deriv ?_
  ring

/-- The pair energy of one entry, zero past the truncation radius. -/
noncomputable def pairLaw (par : EamAlParams ℝ) (rt pair_shift dens_shift r : ℝ) : ℝ :=
  if r ≥ rt then 0
  else pairShape par r - pair_shift - 2 * par.g_transform * (entryDensity par rt dens_shift r).1

noncomputable def pairSlope (par : EamAlParams ℝ) (rt dens_shift r : ℝ) : ℝ :=
  if r ≥ rt then 0
  else -(par.pair_decay_a * (par.pair_amp_a * Real.exp (-par.pair_decay_a * r)) +
    par.pair_decay_b * (par.pair_amp_b * Real.exp (-par.pair_decay_b * r))) -
      2 * par.g_transform * (entryDensity par rt dens_shift r).2

theorem hasDerivAt_pairLaw {pair_shift shift : ℝ} (hpower : 1 ≤ par.density_power) (hr : r ≠ rt) :
    HasDerivAt (pairLaw par rt pair_shift shift) (pairSlope par rt shift r) r := by
  refine hasDerivAt_cut hr fun _ => ?_
  have hshape := ((hasDerivAt_decay par.pair_decay_a r).const_mul par.pair_amp_a).fun_add
    ((hasDerivAt_decay par.pair_decay_b r).const_mul par.pair_amp_b)
  have hall := (hshape.sub_const pair_shift).fun_sub
    ((hasDerivAt_entryDensity shift hpower hr).const_mul (2 * par.g_transform))
  refine hall.congr_deriv ?_
  ring

end Slopes

section Gather
variable {n : ℕ} (par : EamAlParams ℝ) (H : Matrix (Fin 3) (Fin 3) ℝ) (R : Places (Fin n) (Fin 3))

/-- The density that one neighbour puts at an atom. -/
noncomputable def density (r : ℝ) : ℝ × ℝ :=
  entryDensity par (truncationRadius par) (densityShape par par.rcut) r

/-- Pairs, and each atom in the density of its neighbours. -/
noncomputable def eamAlEnergy : ℝ :=
  embeddedEnergy H (within H R par.cutoff)
    (fun _ => pairLaw par (truncationRadius par) (pairShape par par.rcut) (densityShape par par.rcut))
    (fun _ r => (density par r).1) (fun _ rho => (embedHorner par rho).1) R

/-- Positions at which no pair is at the cutoff or at the truncation radius and no two atoms coincide. -/
structure Regular : Prop where
  off_cutoff : ∀ b : Bond (Fin n) (Fin 3), b.src ≠ b.dst → length H R b ≠ par.cutoff
  apart : ∀ b ∈ within H R par.cutoff, 0 < length H R b
  off_truncation : ∀ b ∈ within H R par.cutoff, length H R b ≠ truncationRadius par

variable {par H R}

/-- The slope of the embedding of an atom. -/
noncomputable def embedSlope (par : EamAlParams ℝ) (H : Matrix (Fin 3) (Fin 3) ℝ) (R : Places (Fin n) (Fin 3))
    (B : Finset (Bond (Fin n) (Fin 3))) (a : Fin n) : ℝ :=
  (embedHorner par (∑ b ∈ rowOf B a, (density par (length H R b)).1)).2

noncomputable def radialSlope (par : EamAlParams ℝ) (r : ℝ) : ℝ :=
  pairSlope par (truncationRadius par) (densityShape par par.rcut) r

theorem isForce_eamAl (hH : H.det ≠ 0) (hpower : 1 ≤ par.density_power) (h : Regular par H R) :
    IsForce (fun R => eamAlEnergy par H R) (fun a => ∑ b ∈ rowOf (within H R par.cutoff) a,
      (radialSlope par (length H R b) + (embedSlope par H R (within H R par.cutoff) a +
        embedSlope par H R (within H R par.cutoff) b.dst) * (density par (length H R b)).2) • unit H R b) R := by
  set B := within H R par.cutoff with hB
  have hforce := isForce_embedded H (full_within hH R par.cutoff)
    (φ := fun _ => pairLaw par (truncationRadius par) (pairShape par par.rcut) (densityShape par par.rcut))
    (ρ := fun _ r => (density par r).1) (F := fun _ rho => (embedHorner par rho).1) h.apart
    (fun b hb => hasDerivAt_pairLaw hpower (h.off_truncation b hb))
    (fun b hb => hasDerivAt_entryDensity _ hpower (h.off_truncation b hb))
    (fun a => hasDerivAt_embedHorner _)
  have hlocal : (fun R => eamAlEnergy par H R) =ᶠ[nhds R] embeddedEnergy H B
      (fun _ => pairLaw par (truncationRadius par) (pairShape par par.rcut) (densityShape par par.rcut))
      (fun _ r => (density par r).1) (fun _ rho => (embedHorner par rho).1) := by
    filter_upwards [eventually_within_eq hH h.off_cutoff] with R' hR'
    rw [eamAlEnergy, hR']
  refine (hforce.congr hlocal).of_eq (funext fun a => Finset.sum_congr rfl fun b _ => ?_)
  simp only [length_rev]
  congr 1
  simp only [radialSlope, embedSlope, density]
  ring

variable {t : NeighborTable ℝ} {B : Finset (Bond (Fin n) (Fin 3))} {slot : Bond (Fin n) (Fin 3) → ℕ}

/-- Past the truncation radius a neighbour adds nothing. -/
theorem density_cut {r : ℝ} (hr : r ≥ truncationRadius par) : density par r = (0, 0) := if_pos hr

theorem atomDensity_eq (h : Carries t H R B slot) {dens : ℕ → ℝ}
    (hdens : ∀ b ∈ B, dens (slot b) = (density par (length H R b)).1) (i : Fin n) :
    atomDensity t (truncationRadius par) dens (i + 1) =
      ∑ b ∈ rowOf B i, (density par (length H R b)).1 := by
  rw [atomDensity, h.overRow i]
  refine Finset.sum_congr rfl fun b hb => ?_
  have hbB := (mem_rowOf.mp hb).1
  rw [h.dist hbB, hdens b hbB]
  split
  · rename_i hcut
    rw [density_cut hcut]
  · rfl

theorem atomContribution_eq (h : Carries t H R B slot) {dens ddens : ℕ → ℝ} (dembed : ℕ → ℝ)
    (hdens : ∀ b ∈ B, dens (slot b) = (density par (length H R b)).1)
    (hddens : ∀ b ∈ B, ddens (slot b) = (density par (length H R b)).2)
    (hdembed : ∀ a : Fin n, dembed (a + 1) = embedSlope par H R B a) (i : Fin n) :
    atomContribution par t (truncationRadius par) (pairShape par par.rcut) dens ddens dembed (i + 1) =
      ∑ b ∈ rowOf B i, (1 / 2 * pairLaw par (truncationRadius par) (pairShape par par.rcut)
          (densityShape par par.rcut) (length H R b),
        (radialSlope par (length H R b) + (embedSlope par H R B i + embedSlope par H R B b.dst) *
          (density par (length H R b)).2) • unit H R b) := by
  rw [atomContribution, h.overRow i]
  refine Finset.sum_congr rfl fun b hb => ?_
  have hbB := (mem_rowOf.mp hb).1
  dsimp only
  rw [h.dist hbB, h.idx hbB, h.unitVec hbB, hdens b hbB, hddens b hbB, hdembed, hdembed]
  split
  · rename_i hcut
    rw [density_cut hcut, pairLaw, if_pos hcut, radialSlope, pairSlope, if_pos hcut]
    refine Prod.ext ?_ ?_
    · exact (mul_zero _).symm
    · simp
  · rename_i hcut
    rw [pairLaw, if_neg hcut, radialSlope, pairSlope, if_neg hcut]
    refine Prod.ext ?_ rfl
    simp only [pairShape, density]
    norm_num

/-- A call that returns zero, whatever the table served before, gives the pair sum and the embedding, and
forces that are exactly minus their gradient and add up to zero. -/
theorem eamAl_conservative {v : Vesin ℝ} (calls : List (TableCall ℝ)) (par : EamAlParams ℝ)
    (R : Places (Fin n) (Fin 3)) (cell : Fin 3 → Fin 3 → ℝ) (heap : Heap ℝ)
    (hlist : ((table v).after (.fresh v) calls).ReportsFull R cell par.cutoff)
    (hcell : (cellRows cell).det ≠ 0) (hpower : 1 ≤ par.density_power)
    (hregular : Regular par (cellRows cell) R) :
    let out := (eamAlEnergyForces par ((table v).after (.fresh v) calls) ⟨3, n, R, cell⟩ heap).1
    out.status = 0 → out.energy = eamAlEnergy par (cellRows cell) R ∧
      IsForce (fun R => eamAlEnergy par (cellRows cell) R) out.forces R := by
  intro out hstatus
  obtain ⟨t, slot, hcarries, hkernel⟩ := evaluate_carries hlist hcell
    hregular.off_cutoff (fun e he => by cases he) (fun t e he => by cases he) hstatus
  obtain ⟨henergy, hforces⟩ := Prod.mk.inj (Except.ok.inj hkernel)
  have hdens : ∀ b ∈ within (cellRows cell) R par.cutoff, t.perEntry heap.dist (fun _ s =>
      (entryDensity par (truncationRadius par) (densityShape par par.rcut) (t.dist s)).1) (slot b) =
        (density par (length (cellRows cell) R b)).1 := by
    intro b hb
    rw [hcarries.perEntry _ _ hb, hcarries.dist hb, density]
  have hddens : ∀ b ∈ within (cellRows cell) R par.cutoff, t.perEntry heap.dist (fun _ s =>
      (entryDensity par (truncationRadius par) (densityShape par par.rcut) (t.dist s)).2) (slot b) =
        (density par (length (cellRows cell) R b)).2 := by
    intro b hb
    rw [hcarries.perEntry _ _ hb, hcarries.dist hb, density]
  have hrho := atomDensity_eq hcarries hdens
  have hatom := atomContribution_eq hcarries
    (fun i => (embedHorner par (atomDensity t (truncationRadius par) _ i)).2) hdens hddens
    (fun a => by rw [hrho a, embedSlope])
  constructor
  · refine henergy.symm.trans ?_
    simp only [hatom, hrho, Prod.fst_sum]
    rw [eamAlEnergy, embeddedEnergy, ← sum_rows]
  · have hgathered := hforces.symm.trans (funext fun i => congrArg Prod.snd (hatom i))
    simp only [Prod.snd_sum] at hgathered
    have := isForce_eamAl hcell hpower hregular
    rwa [← hgathered] at this

/-- A triangle in a wide cube, on a table that has served two atoms. -/
theorem eamAl_conservative_trimer :
    let out := (eamAlEnergyForces {} ((table listing).after (.fresh listing) (servedTwo 3))
      ⟨3, 3, trimer, cube 100⟩ emptyHeap).1
    out.energy = eamAlEnergy {} (cellRows (cube 100)) trimer ∧
      IsForce (fun R => eamAlEnergy {} (cellRows (cube 100)) R) out.forces trimer := by
  have hcutoff : (EamAlParams.cutoff {} : ℝ) = 7.1 := rfl
  have hcube : (cellRows (cube 100)).det ≠ 0 := det_cube (by norm_num)
  have htruncation : (2.9 : ℝ) < truncationRadius ({} : EamAlParams ℝ) := by
    have hroot : (0.9 : ℝ) ≤ Real.sqrt 0.9999 := Real.le_sqrt_of_sq_le (by norm_num)
    calc (2.9 : ℝ) < 0.9 * 7.1 := by norm_num
      _ ≤ truncationRadius ({} : EamAlParams ℝ) := mul_le_mul_of_nonneg_right hroot (by norm_num)
  have hwithin : ∀ b ∈ within (cellRows (cube 100)) trimer (EamAlParams.cutoff {}),
      IsSide (length (cellRows (cube 100)) trimer b) :=
    fun b hb => (trimer_within (by rw [hcutoff]; norm_num) hb).2
  refine eamAl_conservative (servedTwo 3) {} trimer (cube 100) emptyHeap
    ((serving_servedTwo 3).reportsFull trimer _) hcube (by decide) ⟨?_, ?_, ?_⟩
    (listing_evaluate (serving_servedTwo 3) _ _ _ hcube fun t => ⟨_, rfl⟩)
  · exact trimer_off (by rw [hcutoff]; norm_num) (by rw [hcutoff]; norm_num)
  · intro b hb
    linarith [(hwithin b hb).bounds.1]
  · intro b hb
    exact ((hwithin b hb).bounds.2.trans_lt htruncation).ne

end Gather
end Rgpot.Fortran.EamAl
