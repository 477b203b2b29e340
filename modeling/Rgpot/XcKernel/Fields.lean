import Rgpot.XcKernel.Response

/-! `fieldsFromDensity` against the density and gradient that `apply_fxc_d` builds. -/
namespace Rgpot.XcKernel
open RowMajor Finset

/-- `grad_rho` holds its three components one after another. -/
structure XcFields (K : Type) where
  rho : ℕ → K
  sigma : ℕ → K
  tau : ℕ → K
  lapl : ℕ → K
  grad_rho : ℕ → K

variable {K : Type} [Field K]

section Assembly
variable (grid : XcGrid K) (chi dchi P : ℕ → K)

/-- The derivative of orbital `u` along an axis. -/
def derivative (axis u g : ℕ) : K := dchi ((axis * grid.nbf + u) * grid.npts + g)

/-- `dx_u dx_v + dy_u dy_v + dz_u dz_v`. -/
def gradientProduct (u v g : ℕ) : K :=
  derivative grid dchi 0 u g * derivative grid dchi 0 v g +
    derivative grid dchi 1 u g * derivative grid dchi 1 v g +
    derivative grid dchi 2 u g * derivative grid dchi 2 v g

/-- A component of the gradient that a pair of orbitals adds. -/
def addGradient (u v axis : ℕ) (grad_rho : ℕ → K) : ℕ → K :=
  write (axis * grid.npts) grid.npts (fun g => grad_rho (axis * grid.npts + g) +
    P (u * grid.nbf + v) * (derivative grid dchi axis u g * chi (v * grid.npts + g) +
      chi (u * grid.npts + g) * derivative grid dchi axis v g)) grad_rho

/-- What a pair of orbitals adds at every grid point. -/
def addPair (u v : ℕ) (f : XcFields K) : XcFields K where
  rho := write 0 grid.npts (fun g => f.rho g +
    P (u * grid.nbf + v) * chi (u * grid.npts + g) * chi (v * grid.npts + g)) f.rho
  sigma := f.sigma
  tau := write 0 grid.npts (fun g => f.tau g +
    1 / 2 * P (u * grid.nbf + v) * gradientProduct grid dchi u v g) f.tau
  lapl := match grid.lapl_chi with
    | none => f.lapl
    | some lapl_chi => write 0 grid.npts (fun g => f.lapl g +
        P (u * grid.nbf + v) * (lapl_chi (u * grid.npts + g) * chi (v * grid.npts + g) +
          2 * gradientProduct grid dchi u v g +
          chi (u * grid.npts + g) * lapl_chi (v * grid.npts + g))) f.lapl
  grad_rho := addGradient grid chi dchi P u v 2 (addGradient grid chi dchi P u v 1
    (addGradient grid chi dchi P u v 0 f.grad_rho))

/-- The contraction of the gradient with itself. -/
def sigmaOf (f : XcFields K) : XcFields K :=
  { f with sigma := write 0 grid.npts (fun g => f.grad_rho g * f.grad_rho g +
      f.grad_rho (grid.npts + g) * f.grad_rho (grid.npts + g) +
      f.grad_rho (2 * grid.npts + g) * f.grad_rho (2 * grid.npts + g)) f.sigma }

def noFields : XcFields K := ⟨zeros, zeros, zeros, zeros, zeros⟩

/-- Without a density, orbitals or their derivatives all fields are zero. -/
def fieldsFromDensity (P : Option (ℕ → K)) : XcFields K :=
  match P, grid.chi, grid.dchi with
  | some P, some chi, some dchi =>
    sigmaOf grid ((List.range grid.nbf).foldl (fun f u =>
      (List.range grid.nbf).foldl (fun f v => addPair grid chi dchi P u v f) f) noFields)
  | _, _, _ => noFields

end Assembly

section Agreement
variable {grid : XcGrid K} {chi dchi P : ℕ → K} {u v g axis : ℕ}

/-- The perturbed gradient of `apply_fxc_d`. -/
def gradient (grid : XcGrid K) (chi dm : ℕ → K) (axis : ℕ) : ℕ → K :=
  perturbed_gradient grid (gemm_dmt_ao dm chi grid.nbf grid.npts)
    (gemm_dm_ao dm chi grid.nbf grid.npts) axis

/-- `apply_fxc_d` contracts with these fields. -/
theorem apply_fxc_d_eq {k : XcKernel K} (hchi : grid.chi = some chi) (hsize : ¬ (grid.npts = 0 ∨ grid.nbf = 0))
    (ground : ScalMap K) (dm vxc : ℕ → K) : k.apply_fxc_d grid ground dm vxc =
      k.contract_st_blocked grid chi (k.perturbed ground (density grid chi dm) (gradient grid chi dm 0)
        (gradient grid chi dm 1) (gradient grid chi dm 2)) vxc := by
  simp only [apply_fxc_d, hchi, if_neg hsize]
  rfl

theorem addPair_rho (hg : g < grid.npts) (f : XcFields K) : (addPair grid chi dchi P u v f).rho g =
    f.rho g + P (u * grid.nbf + v) * chi (u * grid.npts + g) * chi (v * grid.npts + g) := by
  have hwrite : (addPair grid chi dchi P u v f).rho g = write 0 grid.npts (fun g => f.rho g +
      P (u * grid.nbf + v) * chi (u * grid.npts + g) * chi (v * grid.npts + g)) f.rho g := rfl
  rw [hwrite, write_zero_apply hg]

/-- A component of the gradient leaves the others. -/
theorem addGradient_apply {other : ℕ} (hg : g < grid.npts) (grad_rho : ℕ → K) :
    addGradient grid chi dchi P u v other grad_rho (axis * grid.npts + g) =
      grad_rho (axis * grid.npts + g) + if axis = other then
        P (u * grid.nbf + v) * (derivative grid dchi axis u g * chi (v * grid.npts + g) +
          chi (u * grid.npts + g) * derivative grid dchi axis v g) else 0 := by
  by_cases hsame : axis = other
  · subst hsame
    rw [if_pos rfl]
    exact write_apply hg
  · rw [if_neg hsame, add_zero]
    refine if_neg ?_
    rintro ⟨hlow, hhigh⟩
    have hnext : axis * grid.npts + g < (axis + 1) * grid.npts := by
      rw [Nat.succ_mul]
      omega
    have hother : other < axis + 1 := Nat.lt_of_mul_lt_mul_right (hlow.trans_lt hnext)
    have haxis : axis < other + 1 := by
      refine Nat.lt_of_mul_lt_mul_right (a := grid.npts) ?_
      rw [Nat.succ_mul]
      omega
    omega

theorem addPair_gradient (haxis : axis < 3) (hg : g < grid.npts) (f : XcFields K) :
    (addPair grid chi dchi P u v f).grad_rho (axis * grid.npts + g) =
      f.grad_rho (axis * grid.npts + g) +
        P (u * grid.nbf + v) * (derivative grid dchi axis u g * chi (v * grid.npts + g) +
          chi (u * grid.npts + g) * derivative grid dchi axis v g) := by
  have hthree : (addPair grid chi dchi P u v f).grad_rho = addGradient grid chi dchi P u v 2
      (addGradient grid chi dchi P u v 1 (addGradient grid chi dchi P u v 0 f.grad_rho)) := rfl
  rw [hthree, addGradient_apply hg, addGradient_apply hg, addGradient_apply hg]
  rcases (by omega : axis = 0 ∨ axis = 1 ∨ axis = 2) with rfl | rfl | rfl
  · simp
  · simp
  · simp

/-- The loops over the pairs add what each pair adds. -/
theorem foldl_addPair (observe : XcFields K → K) {term : ℕ → ℕ → K}
    (h : ∀ f u v, observe (addPair grid chi dchi P u v f) = observe f + term u v) (f : XcFields K) :
    observe ((List.range grid.nbf).foldl (fun f u =>
      (List.range grid.nbf).foldl (fun f v => addPair grid chi dchi P u v f) f) f) =
      observe f + ∑ u ∈ range grid.nbf, ∑ v ∈ range grid.nbf, term u v :=
  foldl_range_add (fun f u _ => foldl_range_add (fun f v _ => h f u v) f) f

/-- The density of an AO matrix at a grid point. -/
def densityAt (grid : XcGrid K) (chi P : ℕ → K) (g : ℕ) : K :=
  ∑ u ∈ range grid.nbf, ∑ v ∈ range grid.nbf,
    P (u * grid.nbf + v) * chi (u * grid.npts + g) * chi (v * grid.npts + g)

theorem density_eq (hg : g < grid.npts) : density grid chi P g = densityAt grid chi P g := by
  rw [density_apply hg, densityAt, sum_comm]
  refine sum_congr rfl fun u _ => ?_
  rw [mul_sum]
  exact sum_congr rfl fun v _ => by ring

theorem fields_rho (hchi : grid.chi = some chi) (hdchi : grid.dchi = some dchi) (hg : g < grid.npts) :
    (fieldsFromDensity grid (some P)).rho g = densityAt grid chi P g := by
  simp only [fieldsFromDensity, hchi, hdchi, sigmaOf]
  refine (foldl_addPair (fun f => f.rho g) (fun f u v => addPair_rho hg f) noFields).trans ?_
  exact zero_add _

theorem fields_gradient (hchi : grid.chi = some chi) (hdchi : grid.dchi = some dchi) (haxis : axis < 3)
    (hg : g < grid.npts) : (fieldsFromDensity grid (some P)).grad_rho (axis * grid.npts + g) =
      ∑ u ∈ range grid.nbf, ∑ v ∈ range grid.nbf, P (u * grid.nbf + v) *
        (derivative grid dchi axis u g * chi (v * grid.npts + g) +
          chi (u * grid.npts + g) * derivative grid dchi axis v g) := by
  simp only [fieldsFromDensity, hchi, hdchi, sigmaOf]
  refine (foldl_addPair (fun f => f.grad_rho (axis * grid.npts + g))
    (fun f u v => addPair_gradient haxis hg f) noFields).trans ?_
  exact zero_add _

/-- The two matrix products of `apply_fxc_d` give both orders of each pair. -/
theorem gradient_eq (hdchi : grid.dchi = some dchi) (hg : g < grid.npts) :
    gradient grid chi P axis g =
      ∑ u ∈ range grid.nbf, ∑ v ∈ range grid.nbf, P (u * grid.nbf + v) *
        (derivative grid dchi axis u g * chi (v * grid.npts + g) +
          chi (u * grid.npts + g) * derivative grid dchi axis v g) := by
  have hd : ∀ u, dchi (axis * grid.nbf * grid.npts + (u * grid.npts + g)) = derivative grid dchi axis u g := by
    intro u
    rw [derivative]
    congr 1
    ring
  have hc0 : ∀ u < grid.nbf, gemm_dmt_ao P chi grid.nbf grid.npts (u * grid.npts + g) =
      ∑ v ∈ range grid.nbf, P (v * grid.nbf + u) * chi (v * grid.npts + g) := by
    intro u hu
    rw [gemm_dmt_ao, fill_zero_apply hu hg, accumulate_eq_sum]
  have hc1 : ∀ u < grid.nbf, gemm_dm_ao P chi grid.nbf grid.npts (u * grid.npts + g) =
      ∑ v ∈ range grid.nbf, P (u * grid.nbf + v) * chi (v * grid.npts + g) := by
    intro u hu
    rw [gemm_dm_ao, fill_zero_apply hu hg, accumulate_eq_sum]
  have hfirst : ∑ u ∈ range grid.nbf, gemm_dmt_ao P chi grid.nbf grid.npts (u * grid.npts + g) *
      dchi (axis * grid.nbf * grid.npts + (u * grid.npts + g)) =
      ∑ u ∈ range grid.nbf, ∑ v ∈ range grid.nbf,
        P (u * grid.nbf + v) * (chi (u * grid.npts + g) * derivative grid dchi axis v g) := by
    rw [sum_comm]
    refine sum_congr rfl fun v hv => ?_
    rw [hc0 v (mem_range.mp hv), hd, sum_mul]
    exact sum_congr rfl fun u _ => by ring
  have hsecond : ∑ u ∈ range grid.nbf, gemm_dm_ao P chi grid.nbf grid.npts (u * grid.npts + g) *
      dchi (axis * grid.nbf * grid.npts + (u * grid.npts + g)) =
      ∑ u ∈ range grid.nbf, ∑ v ∈ range grid.nbf,
        P (u * grid.nbf + v) * (derivative grid dchi axis u g * chi (v * grid.npts + g)) := by
    refine sum_congr rfl fun u hu => ?_
    rw [hc1 u (mem_range.mp hu), hd, sum_mul]
    exact sum_congr rfl fun v _ => by ring
  simp only [gradient, perturbed_gradient, hdchi]
  rw [add_contract_rho, write_zero_apply hg, contract_rho, write_zero_apply hg, accumulate_eq_sum,
    accumulate_eq_sum, hfirst, hsecond, ← sum_add_distrib]
  refine sum_congr rfl fun u _ => ?_
  rw [← sum_add_distrib]
  exact sum_congr rfl fun v _ => by ring

/-- The two assemblies give one density and one gradient. -/
structure Agree (grid : XcGrid K) (chi P : ℕ → K) : Prop where
  rho : ∀ g < grid.npts, (fieldsFromDensity grid (some P)).rho g = density grid chi P g
  grad_rho : ∀ axis < 3, ∀ g < grid.npts,
    (fieldsFromDensity grid (some P)).grad_rho (axis * grid.npts + g) = gradient grid chi P axis g

/-- `apply_fxc_d` contracts with these fields; `fieldsFromDensity` gives the same exactly where the
derivatives of the orbitals are there or the density vanishes. -/
theorem fields_agree_iff (grid : XcGrid K) (hchi : grid.chi = some chi) (P : ℕ → K) :
    (∀ (k : XcKernel K) ground vxc, ¬ (grid.npts = 0 ∨ grid.nbf = 0) →
      k.apply_fxc_d grid ground P vxc = k.contract_st_blocked grid chi (k.perturbed ground
        (density grid chi P) (gradient grid chi P 0) (gradient grid chi P 1) (gradient grid chi P 2)) vxc) ∧
    (Agree grid chi P ↔ grid.dchi ≠ none ∨ ∀ g < grid.npts, densityAt grid chi P g = 0) := by
  refine ⟨fun k ground vxc hsize => apply_fxc_d_eq hchi hsize ground P vxc, ?_⟩
  cases hdchi : grid.dchi with
  | some dchi =>
    refine iff_of_true ⟨fun g hg => ?_, fun axis haxis g hg => ?_⟩ (Or.inl (Option.some_ne_none dchi))
    · rw [fields_rho hchi hdchi hg, density_eq hg]
    · rw [fields_gradient hchi hdchi haxis hg, gradient_eq hdchi hg]
  | none =>
    have hfields : fieldsFromDensity grid (some P) = noFields := by
      simp only [fieldsFromDensity, hchi, hdchi]
    constructor
    · intro h
      refine Or.inr fun g hg => ?_
      rw [← density_eq hg, ← h.rho g hg, hfields]
      rfl
    · rintro (hnull | hzero)
      · exact absurd rfl hnull
      · refine ⟨fun g hg => ?_, fun axis _ g _ => ?_⟩
        · rw [hfields, density_eq hg, hzero g hg]
          rfl
        · rw [hfields, gradient, perturbed_gradient, hdchi]
          rfl

end Agreement

section Examples

/-- One orbital of value one at one point, with or without derivatives. -/
def onePoint (dchi : Option (ℕ → ℚ)) : XcGrid ℚ where
  npts := 1
  nbf := 1
  chi := some fun _ => 1
  dchi := dchi
  lapl_chi := none
  hess_chi := none

/-- Two orbitals at two points, with derivatives. -/
def twoByTwo : XcGrid ℚ where
  npts := 2
  nbf := 2
  chi := some fun l => l + 1
  dchi := some fun l => l * l
  lapl_chi := none
  hess_chi := none

/-- A matrix that is not symmetric, and the last component of the gradient at the second point. -/
theorem fields_agree_two_orbitals : Agree twoByTwo (fun l => l + 1) (fun l => if l = 1 then 5 else l) ∧
    gradient twoByTwo (fun l => l + 1) (fun l => if l = 1 then 5 else l) 2 1 = 6866 := by
  refine ⟨(fields_agree_iff twoByTwo rfl _).2.mpr (Or.inl (Option.some_ne_none _)), ?_⟩
  have hsecond : 1 < twoByTwo.npts := by decide
  rw [gradient_eq rfl hsecond]
  norm_num [derivative, twoByTwo, sum_range_succ]

/-- Without derivatives the density is lost. -/
theorem not_fields_agree : ¬ ∀ (grid : XcGrid ℚ) chi P, grid.chi = some chi → Agree grid chi P := by
  intro h
  have hagree := (h (onePoint none) (fun _ => 1) (fun _ => 1) rfl).rho 0 Nat.one_pos
  rw [density_eq Nat.one_pos] at hagree
  have hfields : (fieldsFromDensity (onePoint none) (some fun _ => 1)).rho 0 = 0 := rfl
  rw [hfields] at hagree
  simp [densityAt, onePoint] at hagree

end Examples
end Rgpot.XcKernel
