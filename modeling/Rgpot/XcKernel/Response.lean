import Rgpot.XcKernel.Contractions

/-! The response operators are symmetric: what each contraction is, and what it is adjoint to. -/
namespace Rgpot.XcKernel
open RowMajor Finset

variable {K : Type} [Field K] {mo : XcMo K} {grid : XcGrid K} {k : XcKernel K}
variable {ground scal : ScalMap K} {Co Cv e_ia chi : ℕ → K} {occ : K}
variable {z w x y xy vj v1 V dm ov sigma out U c : ℕ → K} {nbf npts g0 u v : ℕ}

/-- An array of `cols` columns as a matrix. -/
def rows (cols : ℕ) (p : ℕ → K) (i j : ℕ) : K := p (i * cols + j)

section Einsum
variable {i a p q : ℕ}

theorem projectOv_apply (hCo : mo.Co = some Co) (hCv : mo.Cv = some Cv) (hi : i < mo.nocc)
    (ha : a < mo.nvir) : projectOv mo V ov (i * mo.nvir + a) =
      project (range mo.nao) (range mo.nao) (rows mo.nvir Cv) (rows mo.nocc Co)
        (rows mo.nao V) i a := by
  simp only [projectOv, hCo, hCv]
  rw [fill_zero_apply hi ha, accumulate_eq_sum]
  refine sum_congr rfl fun q hq => ?_
  rw [fill_zero_apply ha (mem_range.mp hq), accumulate_eq_sum]
  rfl

theorem transitionDm_apply (hCo : mo.Co = some Co) (hCv : mo.Cv = some Cv) (hp : p < mo.nao)
    (hq : q < mo.nao) : transitionDm mo z occ dm (p * mo.nao + q) =
      occ * embed (range mo.nocc) (range mo.nvir) (rows mo.nvir Cv) (rows mo.nocc Co)
        (rows mo.nvir z) p q := by
  simp only [transitionDm, hCo, hCv]
  rw [fill_zero_apply hp hq, accumulate_eq_sum, embed, mul_sum]
  refine sum_congr rfl fun a ha => ?_
  rw [fill_zero_apply (mem_range.mp ha) hq, accumulate_eq_sum, ← mul_assoc, mul_sum]
  simp only [rows, mul_assoc]

/-- The Y part is the embedding transposed. -/
theorem rpaTransitionDm_apply (hCo : mo.Co = some Co) (hCv : mo.Cv = some Cv) (hp : p < mo.nao)
    (hq : q < mo.nao) : rpaTransitionDm mo x y occ dm (p * mo.nao + q) =
      transitionDm mo x occ dm (p * mo.nao + q) + transitionDm mo y occ dm (q * mo.nao + p) := by
  rw [transitionDm_apply (z := y) hCo hCv hq hp]
  simp only [rpaTransitionDm, hCo, hCv]
  rw [fill_zero_apply hp hq, accumulate_eq_sum, embed, mul_sum]
  congr 1
  refine sum_congr rfl fun a ha => ?_
  rw [fill_zero_apply (mem_range.mp ha) hp, accumulate_eq_sum, ← mul_assoc, mul_sum]
  simp only [rows, mul_assoc]

theorem transitionDm_null (h : mo.Co = none ∨ mo.Cv = none) {l : ℕ} (hl : l < mo.nao * mo.nao) :
    transitionDm mo z occ dm l = 0 := by
  cases hCo : mo.Co with
  | none => simpa [transitionDm, hCo] using write_zero_apply hl
  | some Co =>
    have hCv : mo.Cv = none := by simpa [hCo] using h
    simpa [transitionDm, hCo, hCv] using write_zero_apply hl

theorem projectOv_null (h : mo.Co = none ∨ mo.Cv = none) {l : ℕ} (hl : l < mo.nocc * mo.nvir) :
    projectOv mo V ov l = 0 := by
  cases hCo : mo.Co with
  | none => simpa [projectOv, hCo] using write_zero_apply hl
  | some Co =>
    have hCv : mo.Cv = none := by simpa [hCo] using h
    simpa [projectOv, hCo, hCv] using write_zero_apply hl

/-- `projectOv` is the adjoint of `transitionDm`, up to the occupation. -/
theorem dot_transitionDm (mo : XcMo K) (z V dm ov : ℕ → K) (occ : K) :
    dot (mo.nao * mo.nao) V (transitionDm mo z occ dm) =
      occ * dot (mo.nocc * mo.nvir) (projectOv mo V ov) z := by
  by_cases hnull : mo.Co = none ∨ mo.Cv = none
  · have hdm : dot (mo.nao * mo.nao) V (transitionDm mo z occ dm) = 0 :=
      sum_eq_zero fun l hl => by rw [transitionDm_null hnull (mem_range.mp hl), mul_zero]
    have hov : dot (mo.nocc * mo.nvir) (projectOv mo V ov) z = 0 :=
      sum_eq_zero fun l hl => by rw [projectOv_null hnull (mem_range.mp hl), zero_mul]
    rw [hdm, hov, mul_zero]
  simp only [not_or, Option.ne_none_iff_exists'] at hnull
  obtain ⟨⟨Co, hCo⟩, Cv, hCv⟩ := hnull
  have hproject : dot (mo.nocc * mo.nvir) (projectOv mo V ov) z =
      ∑ i ∈ range mo.nocc, ∑ a ∈ range mo.nvir,
        project (range mo.nao) (range mo.nao) (rows mo.nvir Cv) (rows mo.nocc Co)
          (rows mo.nao V) i a * rows mo.nvir z i a := by
    rw [dot_mul]
    refine sum_congr rfl fun i hi => sum_congr rfl fun a ha => ?_
    rw [projectOv_apply hCo hCv (mem_range.mp hi) (mem_range.mp ha), rows]
  rw [hproject, sum_project_mul, dot_mul, mul_sum]
  refine sum_congr rfl fun p hp => ?_
  rw [mul_sum]
  refine sum_congr rfl fun q hq => ?_
  rw [transitionDm_apply hCo hCv (mem_range.mp hp) (mem_range.mp hq), rows]
  ring

/-- The transpose of an AO matrix. -/
def transposed (nao : ℕ) (V : ℕ → K) : ℕ → K := fill 0 nao nao (fun p q => V (q * nao + p)) zeros

theorem dot_transposed (n : ℕ) (V D : ℕ → K) :
    dot (n * n) V (transposed n D) = dot (n * n) (transposed n V) D := by
  rw [dot_mul, dot_mul, sum_comm]
  refine sum_congr rfl fun p hp => sum_congr rfl fun q hq => ?_
  rw [transposed, transposed, fill_zero_apply (mem_range.mp hq) (mem_range.mp hp),
    fill_zero_apply (mem_range.mp hp) (mem_range.mp hq)]

/-- The two parts of an RPA transition density against an AO matrix. -/
theorem dot_rpaTransitionDm (hCo : mo.Co = some Co) (hCv : mo.Cv = some Cv) (x y V ov : ℕ → K) :
    dot (mo.nao * mo.nao) V (rpaTransitionDm mo x y occ dm) =
      occ * (dot (mo.nocc * mo.nvir) (projectOv mo V ov) x +
        dot (mo.nocc * mo.nvir) (projectOv mo (transposed mo.nao V) ov) y) := by
  have hsplit : dot (mo.nao * mo.nao) V (rpaTransitionDm mo x y occ dm) =
      dot (mo.nao * mo.nao) V (transitionDm mo x occ dm) +
        dot (mo.nao * mo.nao) V (transposed mo.nao (transitionDm mo y occ dm)) := by
    simp only [dot_mul, ← sum_add_distrib]
    refine sum_congr rfl fun p hp => sum_congr rfl fun q hq => ?_
    rw [rpaTransitionDm_apply hCo hCv (mem_range.mp hp) (mem_range.mp hq), transposed,
      fill_zero_apply (mem_range.mp hp) (mem_range.mp hq), mul_add]
  rw [hsplit, dot_transposed, dot_transitionDm mo x V dm ov,
    dot_transitionDm mo y (transposed mo.nao V) dm ov, mul_add]

end Einsum

section Kernel

/-- A tile adds its own points; the entries of `out` are the AO pairs. -/
theorem stage_b_tile_apply (hu : u < nbf) (hv : v < nbf) (aow : ℕ → K) :
    (stage_b_tile npts nbf U c V g0 aow out).2 (u * nbf + v) = out (u * nbf + v) +
      ∑ t ∈ range (min kPyscfBlk (npts - g0)),
        U (u * npts + (g0 + t)) * c (g0 + t) * V (v * npts + (g0 + t)) := by
  simp only [stage_b_tile]
  rw [fill_zero_apply hu hv, accumulate_eq_sum]
  congr 1
  refine sum_congr rfl fun t ht => ?_
  rw [fill_zero_apply hu (mem_range.mp ht), Nat.add_assoc, Nat.add_assoc]

/-- The tiles cover the grid once. -/
theorem blocked_stage_b_from_apply (hu : u < nbf) (hv : v < nbf) (npts : ℕ) (U c V : ℕ → K)
    (g0 : ℕ) (aow out : ℕ → K) :
    blocked_stage_b_from npts nbf U c V g0 aow out (u * nbf + v) = out (u * nbf + v) +
      ∑ t ∈ range (npts - g0),
        U (u * npts + (g0 + t)) * c (g0 + t) * V (v * npts + (g0 + t)) := by
  fun_induction blocked_stage_b_from npts nbf U c V g0 aow out with
  | case1 g0 aow out hlt tile ih =>
    rw [ih, stage_b_tile_apply hu hv, add_assoc]
    congr 1
    by_cases hlast : npts - g0 ≤ kPyscfBlk
    · have hrest : npts - (g0 + kPyscfBlk) = 0 := by omega
      rw [min_eq_right hlast, hrest, range_zero, sum_empty, add_zero]
    · have hsplit : npts - g0 = kPyscfBlk + (npts - (g0 + kPyscfBlk)) := by omega
      rw [min_eq_left (Nat.le_of_not_le hlast), hsplit, sum_range_add]
      simp only [Nat.add_assoc]
  | case2 g0 aow out hge =>
    have hrest : npts - g0 = 0 := by omega
    rw [hrest, range_zero, sum_empty, add_zero]

theorem blocked_stage_b_apply (hu : u < nbf) (hv : v < nbf) :
    blocked_stage_b npts nbf U c V out (u * nbf + v) = out (u * nbf + v) +
      ∑ g ∈ range npts, U (u * npts + g) * c g * V (v * npts + g) := by
  rw [blocked_stage_b, blocked_stage_b_from_apply hu hv]
  simp only [Nat.zero_add, Nat.sub_zero]

/-- The perturbed density of `apply_fxc_d`. -/
def density (grid : XcGrid K) (chi dm : ℕ → K) : ℕ → K :=
  contract_rho chi (gemm_dmt_ao dm chi grid.nbf grid.npts) grid.nbf grid.npts zeros

theorem density_apply {g : ℕ} (hg : g < grid.npts) : density grid chi dm g =
    ∑ u ∈ range grid.nbf, chi (u * grid.npts + g) *
      ∑ v ∈ range grid.nbf, dm (v * grid.nbf + u) * chi (v * grid.npts + g) := by
  rw [density, contract_rho, write_zero_apply hg, accumulate_eq_sum]
  refine sum_congr rfl fun u hu => ?_
  rw [gemm_dmt_ao, fill_zero_apply (mem_range.mp hu) hg, accumulate_eq_sum]

/-- What the LDA kernel leaves: `sum_g chi_u(g) c(g) chi_v(g)`. -/
def Collocated (grid : XcGrid K) (chi c V : ℕ → K) : Prop :=
  ∀ u < grid.nbf, ∀ v < grid.nbf, V (u * grid.nbf + v) =
    ∑ g ∈ range grid.npts, chi (u * grid.npts + g) * c g * chi (v * grid.npts + g)

/-- The collocation is the adjoint of the density. -/
theorem Collocated.dot_eq (h : Collocated grid chi c V) (dm : ℕ → K) :
    dot (grid.nbf * grid.nbf) V dm =
      ∑ g ∈ range grid.npts, c g * density grid chi dm g := by
  have hterm : ∀ g < grid.npts, c g * density grid chi dm g =
      ∑ v ∈ range grid.nbf, ∑ u ∈ range grid.nbf, chi (u * grid.npts + g) * c g *
        chi (v * grid.npts + g) * dm (u * grid.nbf + v) := by
    intro g hg
    rw [density_apply hg, mul_sum]
    refine sum_congr rfl fun v _ => ?_
    rw [mul_sum, mul_sum]
    exact sum_congr rfl fun u _ => by ring
  calc dot (grid.nbf * grid.nbf) V dm
      = ∑ u ∈ range grid.nbf, ∑ v ∈ range grid.nbf, ∑ g ∈ range grid.npts,
          chi (u * grid.npts + g) * c g * chi (v * grid.npts + g) * dm (u * grid.nbf + v) := by
        rw [dot_mul]
        refine sum_congr rfl fun u hu => sum_congr rfl fun v hv => ?_
        rw [h u (mem_range.mp hu) v (mem_range.mp hv), sum_mul]
    _ = ∑ v ∈ range grid.nbf, ∑ u ∈ range grid.nbf, ∑ g ∈ range grid.npts,
          chi (u * grid.npts + g) * c g * chi (v * grid.npts + g) * dm (u * grid.nbf + v) :=
        sum_comm
    _ = ∑ v ∈ range grid.nbf, ∑ g ∈ range grid.npts, ∑ u ∈ range grid.nbf,
          chi (u * grid.npts + g) * c g * chi (v * grid.npts + g) * dm (u * grid.nbf + v) :=
        sum_congr rfl fun v _ => sum_comm
    _ = ∑ g ∈ range grid.npts, ∑ v ∈ range grid.nbf, ∑ u ∈ range grid.nbf,
          chi (u * grid.npts + g) * c g * chi (v * grid.npts + g) * dm (u * grid.nbf + v) :=
        sum_comm
    _ = ∑ g ∈ range grid.npts, c g * density grid chi dm g :=
        sum_congr rfl fun g hg => (hterm g (mem_range.mp hg)).symm

/-- What the singlet LDA kernel reads: the grid and the ground-state fields. -/
structure Operands (K : Type) where
  chi : ℕ → K
  w : ℕ → K
  v20 : ℕ → K
  v21 : ℕ → K

/-- The call has all of its operands. -/
structure Operands.Of (o : Operands K) (grid : XcGrid K) (ground : ScalMap K) : Prop where
  npts : grid.npts ≠ 0
  nbf : grid.nbf ≠ 0
  chi : grid.chi = some o.chi
  w : ground "w" = some o.w
  v20 : ground "v2rho2_0" = some o.v20
  v21 : ground "v2rho2_1" = some o.v21

/-- `wv`, for the perturbed density `rho`. -/
def Operands.weight (o : Operands K) (rho : ℕ → K) : ℕ → K :=
  fun g => o.w g * rho g * (o.v20 g + o.v21 g)

variable {fn : XcGrid K → List (ℕ → K) → (ℕ → K) → Except ℕ (ℕ → K)} {o : Operands K}

omit [Field K] in
theorem perturbed_lda (rho gx gy gz : ℕ → K) :
    (xck_lda_st_o2_p fn).perturbed ground rho gx gy gz =
      Function.update ground "rho_a_p1" (some rho) := by
  simp [perturbed, xck_lda_st_o2_p]

omit [Field K] in
/-- The four names are looked up in their order. -/
theorem fill_scal_ptrs_lda (rho : ℕ → K) :
    (xck_lda_st_o2_p fn).fill_scal_ptrs (Function.update ground "rho_a_p1" (some rho)) =
      match ground "w", ground "v2rho2_0", ground "v2rho2_1" with
      | some w, some v20, some v21 => .ok [w, rho, v20, v21]
      | _, _, _ => .error 3 := by
  cases hw : ground "w" <;> cases h20 : ground "v2rho2_0" <;> cases h21 : ground "v2rho2_1" <;>
    simp [fill_scal_ptrs, xck_lda_st_o2_p, hw, h20, h21] <;> rfl

/-- With its operands the call leaves the collocation of the perturbed density. -/
theorem apply_fxc_d_of (fn) (h : o.Of grid ground) (dm out : ℕ → K) : ∃ V,
    (xck_lda_st_o2_p fn).apply_fxc_d grid ground dm out = .ok V ∧
      Collocated grid o.chi (o.weight (density grid o.chi dm)) V := by
  have hsize : ¬ (grid.npts = 0 ∨ grid.nbf = 0) := by
    simp [h.npts, h.nbf]
  simp only [apply_fxc_d, h.chi, if_neg hsize, perturbed_lda, contract_st_blocked,
    fill_scal_ptrs_lda, h.w, h.v20, h.v21]
  refine ⟨_, rfl, fun u hu v hv => ?_⟩
  rw [blocked_stage_b_apply hu hv, write_zero_apply (index_lt hu hv), zero_add]
  refine sum_congr rfl fun g hg => ?_
  rw [write_zero_apply (mem_range.mp hg)]
  rfl

/-- A call that returns had its operands. -/
theorem operands_of_apply_fxc_d
    (h : (xck_lda_st_o2_p fn).apply_fxc_d grid ground dm out = .ok V) :
    ∃ o : Operands K, o.Of grid ground := by
  unfold apply_fxc_d at h
  cases hchi : grid.chi with
  | none => simp [hchi] at h
  | some chi =>
    simp only [hchi] at h
    by_cases hsize : grid.npts = 0 ∨ grid.nbf = 0
    · simp [hsize] at h
    simp only [if_neg hsize, perturbed_lda, contract_st_blocked, fill_scal_ptrs_lda] at h
    cases hw : ground "w" with
    | none => simp [hw, bind, Except.bind] at h
    | some w =>
      cases h20 : ground "v2rho2_0" with
      | none => simp [hw, h20, bind, Except.bind] at h
      | some v20 =>
        cases h21 : ground "v2rho2_1" with
        | none => simp [hw, h20, h21, bind, Except.bind] at h
        | some v21 =>
          rw [not_or] at hsize
          exact ⟨⟨chi, w, v20, v21⟩, hsize.1, hsize.2, hchi, hw, h20, h21⟩

/-- The kernel is symmetric on AO matrices. -/
theorem fxc_symmetric {dm' V' : ℕ → K} (h : o.Of grid ground)
    (hV : (xck_lda_st_o2_p fn).apply_fxc_d grid ground dm out = .ok V)
    (hV' : (xck_lda_st_o2_p fn).apply_fxc_d grid ground dm' out = .ok V') :
    dot (grid.nbf * grid.nbf) V dm' = dot (grid.nbf * grid.nbf) V' dm := by
  obtain ⟨W, hW, hcollocated⟩ := apply_fxc_d_of fn h dm out
  obtain ⟨W', hW', hcollocated'⟩ := apply_fxc_d_of fn h dm' out
  obtain rfl : W = V := Except.ok.inj (hW.symm.trans hV)
  obtain rfl : W' = V' := Except.ok.inj (hW'.symm.trans hV')
  rw [hcollocated.dot_eq, hcollocated'.dot_eq]
  refine sum_congr rfl fun g _ => ?_
  simp only [Operands.weight]
  ring

end Kernel

section Sigma

/-- The orbital energies as a form on the vectors. -/
def orbital (mo : XcMo K) (z w : ℕ → K) : K :=
  match mo.e_ia with
  | some e_ia => ∑ l ∈ range (mo.nocc * mo.nvir), e_ia l * z l * w l
  | none => 0

theorem orbital_comm (mo : XcMo K) (z w : ℕ → K) : orbital mo z w = orbital mo w z := by
  cases h : mo.e_ia with
  | none => simp [orbital, h]
  | some e_ia =>
    simp only [orbital, h]
    exact sum_congr rfl fun l _ => by ring

theorem dot_tdaSigma (mo : XcMo K) (z v1 sigma w : ℕ → K) :
    dot (mo.nocc * mo.nvir) (tdaSigma mo z v1 sigma) w =
      dot (mo.nocc * mo.nvir) (projectOv mo v1 sigma) w + orbital mo z w := by
  cases h : mo.e_ia with
  | none => simp [tdaSigma, orbital, h]
  | some e_ia =>
    simp only [tdaSigma, orbital, h]
    rw [dot_mul, dot_mul, sum_range_mul, ← sum_add_distrib]
    refine sum_congr rfl fun i hi => ?_
    rw [← sum_add_distrib]
    refine sum_congr rfl fun a ha => ?_
    rw [fill_zero_apply (mem_range.mp hi) (mem_range.mp ha)]
    ring

/-- The metric diag(1, -1) of the RPA problem. -/
def metric (nov : ℕ) (w : ℕ → K) : ℕ → K := fun l => if l < nov then w l else - w l

/-- The second half of an (X, Y) vector. -/
def second (nov : ℕ) (w : ℕ → K) : ℕ → K := fun l => w (nov + l)

theorem dot_two_mul (n : ℕ) (a b : ℕ → K) :
    dot (2 * n) a b = dot n a b + dot n (second n a) (second n b) := by
  rw [two_mul, dot, sum_range_add]
  rfl

/-- The lower block in the metric is the Y block of the projection, with the energies. -/
theorem dot_second_rpaSigma (hCo : mo.Co = some Co) (hCv : mo.Cv = some Cv)
    (he : mo.e_ia = some e_ia) (xy v1 sigma w : ℕ → K) :
    dot (mo.nocc * mo.nvir)
        (second (mo.nocc * mo.nvir) (metric (mo.nocc * mo.nvir) (rpaSigma mo xy v1 sigma))) w =
      dot (mo.nocc * mo.nvir) (projectOv mo (transposed mo.nao v1) sigma) w +
        orbital mo (second (mo.nocc * mo.nvir) xy) w := by
  simp only [orbital, he]
  rw [dot_mul, dot_mul, sum_range_mul, ← sum_add_distrib]
  refine sum_congr rfl fun i hi => ?_
  rw [← sum_add_distrib]
  refine sum_congr rfl fun a ha => ?_
  have hlower : ¬ mo.nocc * mo.nvir + (i * mo.nvir + a) < mo.nocc * mo.nvir := by omega
  rw [projectOv_apply hCo hCv (mem_range.mp hi) (mem_range.mp ha), second, metric, if_neg hlower]
  simp only [rpaSigma, hCo, hCv, he]
  rw [fill_apply (mem_range.mp hi) (mem_range.mp ha), accumulate_eq_sum]
  have hproject : ∑ p ∈ range mo.nao,
        fill 0 mo.nvir mo.nao
          (fun a p => accumulate mo.nao fun q => Cv (q * mo.nvir + a) * v1 (p * mo.nao + q)) zeros
          (a * mo.nao + p) * Co (p * mo.nocc + i) =
      project (range mo.nao) (range mo.nao) (rows mo.nvir Cv) (rows mo.nocc Co)
        (rows mo.nao (transposed mo.nao v1)) i a := by
    refine sum_congr rfl fun p hp => congrArg (· * Co (p * mo.nocc + i)) ?_
    rw [fill_zero_apply (mem_range.mp ha) (mem_range.mp hp), accumulate_eq_sum]
    refine sum_congr rfl fun q hq => ?_
    rw [rows, rows, transposed, fill_zero_apply (mem_range.mp hq) (mem_range.mp hp)]
  rw [hproject, second]
  ring

theorem dot_rpaSigma (hCo : mo.Co = some Co) (hCv : mo.Cv = some Cv) (he : mo.e_ia = some e_ia)
    (xy v1 sigma w : ℕ → K) :
    dot (2 * (mo.nocc * mo.nvir)) (metric (mo.nocc * mo.nvir) (rpaSigma mo xy v1 sigma)) w =
      dot (mo.nocc * mo.nvir) (projectOv mo v1 sigma) w +
        dot (mo.nocc * mo.nvir) (projectOv mo (transposed mo.nao v1) sigma)
          (second (mo.nocc * mo.nvir) w) +
        (orbital mo xy w +
          orbital mo (second (mo.nocc * mo.nvir) xy) (second (mo.nocc * mo.nvir) w)) := by
  have hupper : ∀ l < mo.nocc * mo.nvir,
      metric (mo.nocc * mo.nvir) (rpaSigma mo xy v1 sigma) l = tdaSigma mo xy v1 sigma l := by
    intro l hl
    rw [metric, if_pos hl]
    simp only [rpaSigma, hCo, hCv, he]
    rw [fill_of_lt hl]
  rw [dot_two_mul, dot_congr_left hupper, dot_tdaSigma, dot_second_rpaSigma hCo hCv he]
  ring

theorem dot_mixed (mo : XcMo K) (vj vxc D : ℕ → K) :
    dot (mo.nao * mo.nao) (mixed mo vj vxc) D =
      dot (mo.nao * mo.nao) vj D + 1 / 2 * dot (mo.nao * mo.nao) vxc D := by
  rw [dot, dot, dot, mul_sum, ← sum_add_distrib]
  refine sum_congr rfl fun l hl => ?_
  rw [mixed, write_zero_apply (mem_range.mp hl)]
  ring

end Sigma

section Operators
variable {fn : XcGrid K → List (ℕ → K) → (ℕ → K) → Except ℕ (ℕ → K)} {o : Operands K}
variable {J : (ℕ → K) → ℕ → K}

/-- A map on vectors of `n` entries is linear. -/
def Linear (n : ℕ) (A : (ℕ → K) → ℕ → K) : Prop :=
  ∀ (r s : K) (v w : ℕ → K), ∀ l < n, A (fun i => r * v i + s * w i) l = r * A v l + s * A w l

/-- The Coulomb map is self-adjoint on AO matrices. -/
def SelfAdjoint (nao : ℕ) (J : (ℕ → K) → ℕ → K) : Prop :=
  ∀ D D', dot (nao * nao) (J D) D' = dot (nao * nao) D (J D')

/-- The AO operator `vj + vxc / 2` is symmetric. -/
theorem dot_mixed_symmetric (hsize : mo.nao = grid.nbf) (ho : o.Of grid ground)
    (hJ : SelfAdjoint mo.nao J) {D D' V V' : ℕ → K}
    (hV : (xck_lda_st_o2_p fn).apply_fxc_d grid ground D out = .ok V)
    (hV' : (xck_lda_st_o2_p fn).apply_fxc_d grid ground D' out = .ok V') :
    dot (mo.nao * mo.nao) (mixed mo (J D) V) D' = dot (mo.nao * mo.nao) (mixed mo (J D') V') D := by
  rw [dot_mixed, dot_mixed, hJ D D', dot_comm _ D, hsize, fxc_symmetric ho hV hV']

theorem gridTdaSigma_of (fn) (hsize : mo.nao = grid.nbf) (ho : o.Of grid ground) (vj sigma z : ℕ → K) :
    ∃ V, (xck_lda_st_o2_p fn).apply_fxc_d grid ground (transitionDm mo z 2 zeros) zeros = .ok V ∧
      (xck_lda_st_o2_p fn).gridTdaSigma grid mo ground z vj sigma =
        .ok (tdaSigma mo z (mixed mo vj V) sigma) := by
  obtain ⟨V, hV, -⟩ := apply_fxc_d_of fn ho (transitionDm mo z 2 zeros) zeros
  have hnao : ¬ mo.nao = 0 := by rw [hsize]; exact ho.nbf
  refine ⟨V, hV, ?_⟩
  rw [gridTdaSigma, if_neg hnao, hV]
  rfl

theorem gridRpaSigma_of (fn) (hsize : mo.nao = grid.nbf) (ho : o.Of grid ground) (vj sigma xy : ℕ → K) :
    ∃ V, (xck_lda_st_o2_p fn).apply_fxc_d grid ground
        (rpaTransitionDm mo xy (second (mo.nocc * mo.nvir) xy) 2 zeros) zeros = .ok V ∧
      (xck_lda_st_o2_p fn).gridRpaSigma grid mo ground xy vj sigma =
        .ok (rpaSigma mo xy (mixed mo vj V) sigma) := by
  obtain ⟨V, hV, -⟩ := apply_fxc_d_of fn ho
    (rpaTransitionDm mo xy (second (mo.nocc * mo.nvir) xy) 2 zeros) zeros
  have hnao : ¬ mo.nao = 0 := by rw [hsize]; exact ho.nbf
  refine ⟨V, hV, ?_⟩
  simp only [gridRpaSigma, if_neg hnao]
  exact congrArg (· >>= fun vxc => pure (rpaSigma mo xy (mixed mo vj vxc) sigma)) hV

/-- The calls return exactly when the matrices are not empty and the kernel has its operands. -/
theorem gridTdaSigma_returns_iff (hsize : mo.nao = grid.nbf) (vj sigma : ℕ → K) :
    (∃ Az, (xck_lda_st_o2_p fn).gridTdaSigma grid mo ground z vj sigma = .ok Az) ↔
      ∃ o : Operands K, o.Of grid ground := by
  constructor
  · rintro ⟨Az, h⟩
    by_cases hnao : mo.nao = 0
    · simp [gridTdaSigma, hnao] at h
    rw [gridTdaSigma, if_neg hnao] at h
    cases hV : (xck_lda_st_o2_p fn).apply_fxc_d grid ground (transitionDm mo z 2 zeros) zeros with
    | error rc => simp [hV, bind, Except.bind] at h
    | ok V => exact operands_of_apply_fxc_d hV
  · rintro ⟨o, ho⟩
    obtain ⟨V, -, h⟩ := gridTdaSigma_of fn hsize ho vj sigma z
    exact ⟨_, h⟩

/-- A map whose value is linear in the metric is linear. -/
theorem linear_of_metric {n : ℕ} {S : (ℕ → K) → ℕ → K}
    (h : Linear (2 * n) fun v => metric n (S v)) : Linear (2 * n) S := by
  intro r s v w l hl
  have hmetric := h r s v w l hl
  by_cases hlt : l < n
  · simpa [metric, hlt] using hmetric
  · simp only [metric, if_neg hlt] at hmetric
    linear_combination -hmetric

variable [CharZero K]

theorem tdaSigma_symmetric (hsize : mo.nao = grid.nbf) (ho : o.Of grid ground)
    (hJ : SelfAdjoint mo.nao J) {V W : ℕ → K} (sigma : ℕ → K)
    (hV : (xck_lda_st_o2_p fn).apply_fxc_d grid ground (transitionDm mo z 2 zeros) zeros = .ok V)
    (hW : (xck_lda_st_o2_p fn).apply_fxc_d grid ground (transitionDm mo w 2 zeros) zeros = .ok W) :
    dot (mo.nocc * mo.nvir) w
        (tdaSigma mo z (mixed mo (J (transitionDm mo z 2 zeros)) V) sigma) =
      dot (mo.nocc * mo.nvir)
        (tdaSigma mo w (mixed mo (J (transitionDm mo w 2 zeros)) W) sigma) z := by
  have hao := dot_mixed_symmetric hsize ho hJ hV hW
  rw [dot_transitionDm mo w _ zeros sigma, dot_transitionDm mo z _ zeros sigma] at hao
  have hcancel := mul_left_cancel₀ two_ne_zero hao
  rw [dot_comm, dot_tdaSigma, dot_tdaSigma, hcancel, orbital_comm]

theorem rpaSigma_symmetric (hsize : mo.nao = grid.nbf) (ho : o.Of grid ground)
    (hJ : SelfAdjoint mo.nao J) (hCo : mo.Co = some Co) (hCv : mo.Cv = some Cv)
    (he : mo.e_ia = some e_ia) {V W : ℕ → K} (sigma : ℕ → K)
    (hV : (xck_lda_st_o2_p fn).apply_fxc_d grid ground
      (rpaTransitionDm mo z (second (mo.nocc * mo.nvir) z) 2 zeros) zeros = .ok V)
    (hW : (xck_lda_st_o2_p fn).apply_fxc_d grid ground
      (rpaTransitionDm mo w (second (mo.nocc * mo.nvir) w) 2 zeros) zeros = .ok W) :
    dot (2 * (mo.nocc * mo.nvir)) w (metric (mo.nocc * mo.nvir) (rpaSigma mo z
        (mixed mo (J (rpaTransitionDm mo z (second (mo.nocc * mo.nvir) z) 2 zeros)) V) sigma)) =
      dot (2 * (mo.nocc * mo.nvir)) (metric (mo.nocc * mo.nvir) (rpaSigma mo w
        (mixed mo (J (rpaTransitionDm mo w (second (mo.nocc * mo.nvir) w) 2 zeros)) W) sigma)) z := by
  have hao := dot_mixed_symmetric hsize ho hJ hV hW
  rw [dot_rpaTransitionDm hCo hCv w _ _ sigma, dot_rpaTransitionDm hCo hCv z _ _ sigma] at hao
  have hcancel := mul_left_cancel₀ two_ne_zero hao
  rw [dot_comm, dot_rpaSigma hCo hCv he, dot_rpaSigma hCo hCv he, hcancel, orbital_comm mo z w,
    orbital_comm mo (second _ z)]

/-- With its operands the singlet LDA kernel gives a linear symmetric TDA operator, and an RPA
operator that is linear and symmetric in the metric. The linearity of `J` is not needed. -/
theorem response_symmetric (fn) (hsize : mo.nao = grid.nbf) (ho : o.Of grid ground)
    (hJ : SelfAdjoint mo.nao J) (sigma : ℕ → K) :
    (∃ A : (ℕ → K) → ℕ → K,
      (∀ z, (xck_lda_st_o2_p fn).gridTdaSigma grid mo ground z (J (transitionDm mo z 2 zeros))
        sigma = .ok (A z)) ∧
      Linear (mo.nocc * mo.nvir) A ∧
      ∀ z w, dot (mo.nocc * mo.nvir) w (A z) = dot (mo.nocc * mo.nvir) (A w) z) ∧
    ∀ Co Cv e_ia, mo.Co = some Co → mo.Cv = some Cv → mo.e_ia = some e_ia →
      ∃ S : (ℕ → K) → ℕ → K,
        (∀ xy, (xck_lda_st_o2_p fn).gridRpaSigma grid mo ground xy
          (J (rpaTransitionDm mo xy (second (mo.nocc * mo.nvir) xy) 2 zeros)) sigma = .ok (S xy)) ∧
        Linear (2 * (mo.nocc * mo.nvir)) S ∧
        ∀ v w, dot (2 * (mo.nocc * mo.nvir)) (metric (mo.nocc * mo.nvir) w) (S v) =
          dot (2 * (mo.nocc * mo.nvir)) (metric (mo.nocc * mo.nvir) (S w)) v := by
  constructor
  · choose V hV hcall using fun z =>
      gridTdaSigma_of fn hsize ho (J (transitionDm mo z 2 zeros)) sigma z
    have hsymm := fun v w => tdaSigma_symmetric hsize ho hJ sigma (hV v) (hV w)
    exact ⟨_, hcall, fun r s v w l hl => linear_of_symmetric hsymm r s v w hl, hsymm⟩
  · intro Co Cv e_ia hCo hCv he
    choose V hV hcall using fun xy =>
      gridRpaSigma_of fn hsize ho
        (J (rpaTransitionDm mo xy (second (mo.nocc * mo.nvir) xy) 2 zeros)) sigma xy
    have hsymm := fun v w => rpaSigma_symmetric hsize ho hJ hCo hCv he sigma (hV v) (hV w)
    refine ⟨_, hcall, linear_of_metric fun r s v w l hl => linear_of_symmetric hsymm r s v w hl, ?_⟩
    intro v w
    refine Eq.trans ?_ (hsymm v w)
    refine sum_congr rfl fun l _ => ?_
    by_cases hl : l < mo.nocc * mo.nvir <;> simp [metric, hl]

end Operators

section Instances

/-- Three orbitals on two points. -/
def twoPoints : XcGrid ℚ where
  npts := 2
  nbf := 3
  chi := some fun l => l + 1
  dchi := none
  lapl_chi := none
  hess_chi := none

/-- One occupied and two virtual orbitals, mixed from all three. -/
def threeOrbitals : XcMo ℚ where
  nao := 3
  nocc := 1
  nvir := 2
  Co := some fun q => q + 1
  Cv := some fun l => 2 - l * l
  e_ia := some fun l => 3 + l

/-- Every ground-state field is one. -/
def ones : ScalMap ℚ := fun _ => some fun _ => 1

/-- `(pq|rs) = δ_pq δ_rs`. -/
def traceCoulomb (D : ℕ → ℚ) : ℕ → ℚ := fun l => if l = 0 ∨ l = 4 ∨ l = 8 then D 0 + D 4 + D 8 else 0

/-- Two excitations: an operator of two rows for TDA and one of four for RPA. -/
theorem response_symmetric_three_orbitals : (∃ A : (ℕ → ℚ) → ℕ → ℚ,
    (∀ z, (xck_lda_st_o2_p fun _ _ out => .ok out).gridTdaSigma twoPoints threeOrbitals ones z
      (traceCoulomb (transitionDm threeOrbitals z 2 zeros)) zeros = .ok (A z)) ∧
    Linear 2 A ∧ ∀ z w, dot 2 w (A z) = dot 2 (A w) z) ∧
    ∃ S : (ℕ → ℚ) → ℕ → ℚ,
      (∀ xy, (xck_lda_st_o2_p fun _ _ out => .ok out).gridRpaSigma twoPoints threeOrbitals ones xy
        (traceCoulomb (rpaTransitionDm threeOrbitals xy (second 2 xy) 2 zeros)) zeros = .ok (S xy)) ∧
      Linear 4 S ∧ ∀ v w, dot 4 (metric 2 w) (S v) = dot 4 (metric 2 (S w)) v := by
  let o : Operands ℚ := ⟨fun l => l + 1, fun _ => 1, fun _ => 1, fun _ => 1⟩
  have ho : o.Of twoPoints ones := ⟨by decide, by decide, rfl, rfl, rfl, rfl⟩
  have hJ : SelfAdjoint threeOrbitals.nao traceCoulomb := by
    intro D D'
    simp [dot, threeOrbitals, traceCoulomb, sum_range_succ]
    ring
  obtain ⟨htda, hrpa⟩ := response_symmetric (fun _ _ out => .ok out)
    (rfl : threeOrbitals.nao = twoPoints.nbf) ho hJ zeros
  exact ⟨htda, hrpa _ _ _ rfl rfl rfl⟩

end Instances

end Rgpot.XcKernel
