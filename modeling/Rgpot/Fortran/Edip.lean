import Rgpot.Fortran.Gather

/-! EDIP silicon in gather form: pairs and triplets that depend on the coordination of their centre. -/
namespace Rgpot.Fortran.Edip
open Bonds OutwardRoot

/-- `edip_params_t`; the defaults are the silicon set. -/
structure EdipParams (K : Type) [Field K] where
  cap_a : K := 5.6714030
  cap_b : K := 2.0002804
  rh : K := 1.2085196
  a : K := 3.1213820
  sig : K := 0.5774108
  lam : K := 1.4533108
  gam : K := 1.1247945
  b : K := 3.1213820
  c : K := 2.5609104
  delta : K := 78.7590539
  mu : K := 0.6966326
  qo : K := 312.1341346
  palp : K := 1.4074424
  bet : K := 0.0070975
  alp : K := 3.1083847
  u1 : K := -0.165799
  u2 : K := 32.557
  u3 : K := 0.286198
  u4 : K := 0.66

/-- `edip_const_t`. -/
structure EdipConst (K : Type) where
  bg : K
  eta : K
  qort : K
  muhalf : K
  u5 : K
  bmc : K
  cmbinv : K

/-- One three-body leg of an atom. -/
structure Leg (K : Type) where
  g : K
  dg : K
  u : Fin 3 → K
  rinv : K
  who : ℕ

section Kernel
variable {K : Type} [Field K] [LinearOrder K] [Elementary K] [OutwardRoot K]

/-- `edip_cutoff`. -/
def EdipParams.cutoff (par : EdipParams K) : K := max par.a par.b

def edipConstants (par : EdipParams K) : EdipConst K where
  bg := par.a
  eta := par.delta / par.qo
  qort := sqrt par.qo
  muhalf := par.mu * 0.5
  u5 := par.u2 * par.u4
  bmc := par.b - par.c
  cmbinv := 1 / (par.c - par.b)

/-- The coordination cutoff and its slope. -/
def coordTerm (par : EdipParams K) (cst : EdipConst K) (r : K) : K × K :=
  if r ≥ par.b ∨ r ≥ cst.bg then (0, 0)
  else if r < par.c then (1, 0)
  else
    let xinv := cst.bmc / (r - par.c)
    let xinv3 := xinv * xinv * xinv
    let den := 1 / (1 - xinv3)
    let temp1 := par.alp * den
    if temp1 > expFloor then
      let fz := Elementary.exp temp1
      (fz, fz * temp1 * den * 3 * xinv3 * xinv * cst.cmbinv)
    else (0, 0)

/-- `t0`, `t1`, `t2` and `t3` of the pair term. -/
def pairRadial (par : EdipParams K) (r : K) : K × K × K × K :=
  let rmainv := 1 / (r - par.a)
  let arg := par.sig * rmainv
  let t0 := if arg > expFloor then par.cap_a * Elementary.exp arg else 0
  (t0, Elementary.pow (par.cap_b / r) par.rh, par.rh / r, par.sig * rmainv * rmainv)

/-- The bond order and its slope. -/
def bondOrder (par : EdipParams K) (z : K) : K × K :=
  let temp0 := par.bet * z
  let pz := par.palp * Elementary.exp (-temp0 * z)
  (pz, -2 * temp0 * pz)

/-- `winv`, `dwinv`, `tau` and `dtau`. -/
def angularShape (par : EdipParams K) (cst : EdipConst K) (z : K) : K × K × K × K :=
  let winv := cst.qort * Elementary.exp (-cst.muhalf * z)
  let temp0 := Elementary.exp (-par.u4 * z)
  (winv, -cst.muhalf * winv, par.u1 + par.u2 * temp0 * (par.u3 - temp0),
    cst.u5 * temp0 * (2 * temp0 - par.u3))

/-- `H` and its slope in `x = (l + tau) * winv`. -/
def angularTerm (par : EdipParams K) (cst : EdipConst K) (winv tau lcos : K) : K × K :=
  let x := (lcos + tau) * winv
  let temp0 := Elementary.exp (-x * x)
  (par.lam * (1 - temp0 + cst.eta * x * x), 2 * par.lam * x * (temp0 + cst.eta))

/-- The radial factor of one leg and its slope. -/
def legRadial (par : EdipParams K) (cst : EdipConst K) (r : K) : K × K :=
  if r ≥ cst.bg then (0, 0)
  else
    let rmbinv := 1 / (r - cst.bg)
    let temp1 := par.gam * rmbinv
    if temp1 > expFloor then
      let g := Elementary.exp temp1
      (g, -rmbinv * temp1 * g)
    else (0, 0)

def legGradient (g_self dg_self : K) (u_self : Fin 3 → K) (rinv_self g_other : K) (u_other : Fin 3 → K)
    (lcos h dhdl : K) : Fin 3 → K :=
  fun d => dg_self * g_other * h * u_self d +
    g_self * g_other * dhdl * (u_other d - lcos * u_self d) * rinv_self

/-- The legs of atom `i`: its entries inside `bg`. -/
def collectLegs (par : EdipParams K) (cst : EdipConst K) (table : NeighborTable K) (i : ℕ) : List (Leg K) :=
  ((List.range' (table.row i) (table.countFor i)).filter fun s => ¬ table.dist s ≥ cst.bg).map fun s =>
    let (g, dg) := legRadial par cst (table.dist s)
    ⟨g, dg, table.unitVec s, 1 / table.dist s, table.idx s⟩

/-- The coordination, the energy and its slope in the coordination of atom `i`. -/
def atomTerms (par : EdipParams K) (cst : EdipConst K) (table : NeighborTable K) (i : ℕ) : K × K × K :=
  let z := table.overRow i fun s => (coordTerm par cst (table.dist s)).1
  let (pz, dp) := bondOrder par z
  let pairs := table.overRow i fun s =>
    let r := table.dist s
    if r ≥ par.a then (0 : K × K)
    else
      let (t0, t1, _) := pairRadial par r
      ((t1 - pz) * t0, -(dp * t0))
  let (winv, dwinv, tau, dtau) := angularShape par cst z
  let triplets := overPairs (collectLegs par cst table i) fun j k =>
    if j.who = k.who then (0 : K × K)
    else
      let lcos := j.u ⬝ᵥ k.u
      let (h, dhdx) := angularTerm par cst winv tau lcos
      let gg := j.g * k.g
      let dxdz := dwinv * (lcos + tau) + winv * dtau
      (gg * h, gg * dhdx * dxdz)
  (z, (pairs + triplets).1, (pairs + triplets).2)

/-- The force on atom `i` from the coordinations and slopes of all atoms. -/
def atomForce (par : EdipParams K) (cst : EdipConst K) (table : NeighborTable K) (z dedz : ℕ → K) (i : ℕ) :
    Fin 3 → K :=
  let pairs := table.overRow i fun s =>
    let j := table.idx s
    let r := table.dist s
    let uij := table.unitVec s
    let pair : Fin 3 → K :=
      if r < par.a then
        let (t0, t1, t2, t3) := pairRadial par r
        let (pz_i, _) := bondOrder par (z i)
        let (pz_j, _) := bondOrder par (z j)
        fun d => -(t0 * (t1 * t2 + (t1 - pz_i) * t3) * uij d) - t0 * (t1 * t2 + (t1 - pz_j) * t3) * uij d
      else 0
    let (_, dfz) := coordTerm par cst r
    pair + fun d => (dedz i + dedz j) * dfz * uij d
  let (winv, _, tau, _) := angularShape par cst (z i)
  let centre := overPairs (collectLegs par cst table i) fun j k =>
    if j.who = k.who then (0 : Fin 3 → K)
    else
      let lcos := j.u ⬝ᵥ k.u
      let (h, dhdx) := angularTerm par cst winv tau lcos
      legGradient j.g j.dg j.u j.rinv k.g k.u lcos h (dhdx * winv) +
        legGradient k.g k.dg k.u k.rinv j.g j.u lcos h (dhdx * winv)
  let outer := table.overRow i fun s =>
    let m := table.idx s
    let rim := table.dist s
    if rim ≥ cst.bg then (0 : Fin 3 → K)
    else
      let u_mi := table.backVec s
      let (g_self, dg_self) := legRadial par cst rim
      let (winv, _, tau, _) := angularShape par cst (z m)
      table.overRow m fun sn =>
        if table.idx sn = i then 0
        else if table.dist sn ≥ cst.bg then 0
        else
          let u_mn := table.unitVec sn
          let (g_other, _) := legRadial par cst (table.dist sn)
          let lcos := u_mi ⬝ᵥ u_mn
          let (h, dhdx) := angularTerm par cst winv tau lcos
          legGradient g_self dg_self u_mi (1 / rim) g_other u_mn lcos h (dhdx * winv)
  pairs + centre - outer

def cross (p q : Fin 3 → K) : Fin 3 → K :=
  ![p 1 * q 2 - p 2 * q 1, p 2 * q 0 - p 0 * q 2, p 0 * q 1 - p 1 * q 0]

/-- The width of the cell along each of its vectors; `cell(:, k)` is the function `fun d => cell d k`. -/
def cellWidths (cell : Fin 3 → Fin 3 → K) : Fin 3 → K :=
  let column (k : Fin 3) : Fin 3 → K := fun d => cell d k
  let face : Fin 3 → Fin 3 → K :=
    ![cross (column 1) (column 2), cross (column 2) (column 0), cross (column 0) (column 1)]
  let vol := abs (column 0 ⬝ᵥ face 0)
  fun k =>
    let area := sqrt (face k ⬝ᵥ face k)
    if area > 0 then vol / area else 0

/-- `edip_energy_forces`. -/
def edipEnergyForces {v : Vesin K} (par : EdipParams K) (t : TableState v) (x : Atoms K) (heap : Heap K) :
    Evaluation K x.natoms × TableState v :=
  let rcut := par.cutoff
  let widths := cellWidths x.cell
  let checks : Except (Int32 × String) Unit :=
    if min (min (widths 0) (widths 1)) (widths 2) < rcut then
      .error (1, "rgpot_edip: cell is thinner than the interaction cutoff")
    else .ok ()
  evaluate checks t x rcut heap fun table =>
    let cst := edipConstants par
    let terms (i : ℕ) := atomTerms par cst table i
    let z (i : ℕ) := (terms i).1
    let dedz (i : ℕ) := (terms i).2.2
    .ok (∑ i : Fin x.natoms, (terms (i + 1)).2.1, fun i => atomForce par cst table z dedz (i + 1))

end Kernel

section Slopes
variable {par : EdipParams ℝ} {r : ℝ}

/-- The argument of the exponential of the coordination cutoff. -/
noncomputable def coordArgument (par : EdipParams ℝ) (r : ℝ) : ℝ :=
  par.alp * (1 / (1 - (par.b - par.c) / (r - par.c) * ((par.b - par.c) / (r - par.c)) *
    ((par.b - par.c) / (r - par.c))))

theorem hasDerivAt_coordArgument (hc : par.c < r) (hb : r < par.b) :
    HasDerivAt (coordArgument par) (coordArgument par r *
      (1 / (1 - (par.b - par.c) / (r - par.c) * ((par.b - par.c) / (r - par.c)) *
        ((par.b - par.c) / (r - par.c)))) * 3 *
      ((par.b - par.c) / (r - par.c) * ((par.b - par.c) / (r - par.c)) * ((par.b - par.c) / (r - par.c))) *
      ((par.b - par.c) / (r - par.c)) * (1 / (par.c - par.b))) r := by
  have hrc : r - par.c ≠ 0 := (sub_pos.mpr hc).ne'
  have hcb : par.c - par.b ≠ 0 := (sub_neg.mpr (hc.trans hb)).ne
  have hxinv : HasDerivAt (fun r => (par.b - par.c) / (r - par.c))
      (-(par.b - par.c) / (r - par.c) ^ 2) r := by
    have := ((hasDerivAt_id r).sub_const par.c).fun_inv hrc
    have hmul := this.const_mul (par.b - par.c)
    refine hmul.congr_deriv ?_
    simp only [id]
    ring
  have hone : 1 < (par.b - par.c) / (r - par.c) := by
    rw [one_lt_div (sub_pos.mpr hc)]
    linarith
  have hden : 1 - (par.b - par.c) / (r - par.c) * ((par.b - par.c) / (r - par.c)) *
      ((par.b - par.c) / (r - par.c)) ≠ 0 := by
    nlinarith [mul_pos (sub_pos.mpr hone) (sub_pos.mpr hone)]
  have hall := ((((hxinv.fun_mul hxinv).fun_mul hxinv).const_sub 1).fun_inv hden).const_mul par.alp
  have hform : ∀ r, coordArgument par r = par.alp * (1 - (par.b - par.c) / (r - par.c) *
      ((par.b - par.c) / (r - par.c)) * ((par.b - par.c) / (r - par.c)))⁻¹ := by
    intro r
    rw [coordArgument, one_div]
  have hslope : -(par.b - par.c) / (r - par.c) ^ 2 = (par.b - par.c) / (r - par.c) *
      ((par.b - par.c) / (r - par.c)) * (1 / (par.c - par.b)) := by
    field_simp
    ring
  refine (hall.congr_of_eventuallyEq (Filter.Eventually.of_forall hform)).congr_deriv ?_
  rw [hform r, hslope]
  generalize (par.b - par.c) / (r - par.c) = y at hden ⊢
  field_simp
  ring

/-- The second output of `coord_term` is the slope of the first. -/
theorem hasDerivAt_coordTerm (hb : r ≠ par.b) (ha : r ≠ par.a) (hc : r ≠ par.c)
    (hfloor : coordArgument par r ≠ expFloor) :
    HasDerivAt (fun r => (coordTerm par (edipConstants par) r).1)
      (coordTerm par (edipConstants par) r).2 r := by
  by_cases hout : r > par.b ∨ r > par.a
  · have hvalue : coordTerm par (edipConstants par) r = (0, 0) := if_pos (hout.imp le_of_lt le_of_lt)
    rw [hvalue]
    refine (hasDerivAt_const r (0 : ℝ)).congr_of_eventuallyEq ?_
    have hnear : ∀ᶠ y in nhds r, y > par.b ∨ y > par.a := by
      rcases hout with h | h
      · filter_upwards [Ioi_mem_nhds h] with y hy using Or.inl hy
      · filter_upwards [Ioi_mem_nhds h] with y hy using Or.inr hy
    filter_upwards [hnear] with y hy
    exact congrArg Prod.fst (if_pos (hy.imp le_of_lt le_of_lt))
  push Not at hout
  have hltb : r < par.b := lt_of_le_of_ne hout.1 hb
  have hlta : r < par.a := lt_of_le_of_ne hout.2 ha
  have hin : ∀ y, y < par.b → y < par.a → ¬ (y ≥ par.b ∨ y ≥ (edipConstants par).bg) := by
    intro y hyb hya
    exact not_or.mpr ⟨not_le.mpr hyb, not_le.mpr hya⟩
  have hnear : ∀ᶠ y in nhds r, y < par.b ∧ y < par.a := by
    filter_upwards [Iio_mem_nhds hltb, Iio_mem_nhds hlta] with y hyb hya using ⟨hyb, hya⟩
  rcases lt_or_gt_of_ne hc with hlt | hgt
  · have hvalue : coordTerm par (edipConstants par) r = (1, 0) := by
      rw [coordTerm, if_neg (hin r hltb hlta), if_pos hlt]
    rw [hvalue]
    refine (hasDerivAt_const r (1 : ℝ)).congr_of_eventuallyEq ?_
    filter_upwards [hnear, Iio_mem_nhds hlt] with y hy hyc
    rw [coordTerm, if_neg (hin y hy.1 hy.2), if_pos (Set.mem_Iio.mp hyc)]
  · have hswitch : ∀ y, y < par.b → y < par.a → par.c < y →
        coordTerm par (edipConstants par) y = (guardedExp (coordArgument par y),
          guardedExp (coordArgument par y) * (coordArgument par y *
            (1 / (1 - (par.b - par.c) / (y - par.c) * ((par.b - par.c) / (y - par.c)) *
              ((par.b - par.c) / (y - par.c)))) * 3 *
            ((par.b - par.c) / (y - par.c) * ((par.b - par.c) / (y - par.c)) *
              ((par.b - par.c) / (y - par.c))) *
            ((par.b - par.c) / (y - par.c)) * (1 / (par.c - par.b)))) := by
      intro y hyb hya hyc
      rw [coordTerm, if_neg (hin y hyb hya), if_neg (not_lt.mpr hyc.le), guardedExp]
      dsimp only [edipConstants]
      change (if coordArgument par y > expFloor then _ else _) = _
      split
      · refine Prod.ext rfl ?_
        simp only [coordArgument]
        ring
      · rw [zero_mul]
    rw [hswitch r hltb hlta hgt]
    refine (hasDerivAt_guardedExp (hasDerivAt_coordArgument hgt hltb) hfloor).congr_of_eventuallyEq ?_
    filter_upwards [hnear, Ioi_mem_nhds hgt] with y hy hyc
    rw [hswitch y hy.1 hy.2 hyc]

/-- The two radial factors of the pair term, `t1 * t0` and `t0`, with their slopes. -/
noncomputable def pairPower (par : EdipParams ℝ) (r : ℝ) : ℝ :=
  if r ≥ par.a then 0 else (pairRadial par r).2.1 * (pairRadial par r).1

noncomputable def pairEnvelope (par : EdipParams ℝ) (r : ℝ) : ℝ :=
  if r ≥ par.a then 0 else (pairRadial par r).1

noncomputable def pairPowerSlope (par : EdipParams ℝ) (r : ℝ) : ℝ :=
  if r ≥ par.a then 0
  else -((pairRadial par r).1 * ((pairRadial par r).2.1 * (pairRadial par r).2.2.1 +
    (pairRadial par r).2.1 * (pairRadial par r).2.2.2))

noncomputable def pairEnvelopeSlope (par : EdipParams ℝ) (r : ℝ) : ℝ :=
  if r ≥ par.a then 0 else -((pairRadial par r).1 * (pairRadial par r).2.2.2)

theorem hasDerivAt_inverse {k c r : ℝ} (hr : r ≠ c) :
    HasDerivAt (fun r => k * (1 / (r - c))) (-(k * (1 / (r - c)) * (1 / (r - c)))) r := by
  have hinv := (((hasDerivAt_id' r).sub_const c).fun_inv (sub_ne_zero.mpr hr)).const_mul k
  have hne : r - c ≠ 0 := sub_ne_zero.mpr hr
  simp only [one_div]
  refine hinv.congr_deriv ?_
  field_simp

theorem t0_eq (par : EdipParams ℝ) (r : ℝ) :
    (pairRadial par r).1 = par.cap_a * guardedExp (par.sig * (1 / (r - par.a))) := by
  simp only [pairRadial, guardedExp]
  split
  · rfl
  · rw [mul_zero]

theorem hasDerivAt_t0 (ha : r ≠ par.a) (hfloor : par.sig * (1 / (r - par.a)) ≠ expFloor) :
    HasDerivAt (fun r => (pairRadial par r).1) (-((pairRadial par r).1 * (pairRadial par r).2.2.2)) r := by
  simp only [t0_eq]
  refine ((hasDerivAt_guardedExp (hasDerivAt_inverse ha) hfloor).const_mul par.cap_a).congr_deriv ?_
  simp only [pairRadial]
  ring

theorem hasDerivAt_t1 (hr : 0 < r) (hcap : 0 < par.cap_b) :
    HasDerivAt (fun r => (pairRadial par r).2.1) (-((pairRadial par r).2.1 * (pairRadial par r).2.2.1)) r := by
  have hbase : HasDerivAt (fun r => par.cap_b / r) (-(par.cap_b / (r * r))) r := by
    refine (((hasDerivAt_id' r).fun_inv hr.ne').const_mul par.cap_b).congr_deriv ?_
    field_simp
  have hpos : 0 < par.cap_b / r := div_pos hcap hr
  refine (hbase.rpow_const (p := par.rh) (Or.inl hpos.ne')).congr_deriv ?_
  change _ = -((par.cap_b / r) ^ par.rh * (par.rh / r))
  rw [Real.rpow_sub_one hpos.ne']
  field_simp

theorem hasDerivAt_pairPower (hr : 0 < r) (hcap : 0 < par.cap_b) (ha : r ≠ par.a)
    (hfloor : par.sig * (1 / (r - par.a)) ≠ expFloor) :
    HasDerivAt (pairPower par) (pairPowerSlope par r) r := by
  refine hasDerivAt_cut ha fun _ => ((hasDerivAt_t1 hr hcap).fun_mul (hasDerivAt_t0 ha hfloor)).congr_deriv ?_
  ring

theorem hasDerivAt_pairEnvelope (ha : r ≠ par.a) (hfloor : par.sig * (1 / (r - par.a)) ≠ expFloor) :
    HasDerivAt (pairEnvelope par) (pairEnvelopeSlope par r) r :=
  hasDerivAt_cut ha fun _ => hasDerivAt_t0 ha hfloor

theorem hasDerivAt_bondOrder (z : ℝ) :
    HasDerivAt (fun z => (bondOrder par z).1) (bondOrder par z).2 z := by
  have harg : HasDerivAt (fun z => -(par.bet * z) * z) (-2 * (par.bet * z)) z := by
    refine ((((hasDerivAt_id' z).const_mul par.bet).fun_neg).fun_mul (hasDerivAt_id' z)).congr_deriv ?_
    ring
  refine (harg.exp.const_mul par.palp).congr_deriv ?_
  simp only [bondOrder, elementary_exp]
  ring

theorem hasDerivAt_winv (z : ℝ) : HasDerivAt (fun z => (angularShape par (edipConstants par) z).1)
    (angularShape par (edipConstants par) z).2.1 z := by
  have hline : HasDerivAt (fun z => -(edipConstants par).muhalf * z) (-(edipConstants par).muhalf) z := by
    simpa using (hasDerivAt_id z).const_mul (-(edipConstants par).muhalf)
  refine (hline.exp.const_mul (edipConstants par).qort).congr_deriv ?_
  simp only [angularShape, elementary_exp]
  ring

theorem hasDerivAt_tau (z : ℝ) : HasDerivAt (fun z => (angularShape par (edipConstants par) z).2.2.1)
    (angularShape par (edipConstants par) z).2.2.2 z := by
  have hline : HasDerivAt (fun z => -par.u4 * z) (-par.u4) z := by
    simpa using (hasDerivAt_id z).const_mul (-par.u4)
  have hexp := hline.exp
  refine (((hexp.const_mul par.u2).fun_mul (hexp.const_sub par.u3)).const_add par.u1).congr_deriv ?_
  simp only [angularShape, elementary_exp, edipConstants]
  ring

/-- The angular function has its slope in `x`, whatever its arguments depend on. -/
theorem hasFDerivAt_angularTerm {E : Type} [NormedAddCommGroup E] [NormedSpace ℝ E] {winv tau lcos : E → ℝ}
    {x : E} {dx : E →L[ℝ] ℝ} (h : HasFDerivAt (fun y => (lcos y + tau y) * winv y) dx x) :
    HasFDerivAt (fun y => (angularTerm par (edipConstants par) (winv y) (tau y) (lcos y)).1)
      ((angularTerm par (edipConstants par) (winv x) (tau x) (lcos x)).2 • dx) x := by
  have hscalar : ∀ u : ℝ, HasDerivAt
      (fun u => par.lam * (1 - Real.exp (-u * u) + (edipConstants par).eta * u * u))
      (2 * par.lam * u * (Real.exp (-u * u) + (edipConstants par).eta)) u := by
    intro u
    have hsq : HasDerivAt (fun u : ℝ => -u * u) (-2 * u) u := by
      refine (((hasDerivAt_id' u).fun_neg).fun_mul (hasDerivAt_id' u)).congr_deriv ?_
      ring
    have heta := ((hasDerivAt_id' u).const_mul (edipConstants par).eta).fun_mul (hasDerivAt_id' u)
    refine (((hsq.exp.const_sub 1).fun_add heta).const_mul par.lam).congr_deriv ?_
    ring
  exact (hscalar _).comp_hasFDerivAt x h

theorem hasDerivAt_legRadial (ha : r ≠ par.a) (hfloor : par.gam * (1 / (r - par.a)) ≠ expFloor) :
    HasDerivAt (fun r => (legRadial par (edipConstants par) r).1)
      (legRadial par (edipConstants par) r).2 r := by
  have hform : ∀ r, legRadial par (edipConstants par) r =
      (if r ≥ par.a then 0 else guardedExp (par.gam * (1 / (r - par.a))),
        if r ≥ par.a then 0 else guardedExp (par.gam * (1 / (r - par.a))) *
          -(par.gam * (1 / (r - par.a)) * (1 / (r - par.a)))) := by
    intro r
    by_cases hcut : r ≥ par.a
    · rw [if_pos hcut, if_pos hcut]
      exact if_pos hcut
    · rw [if_neg hcut, if_neg hcut, guardedExp]
      refine (if_neg hcut).trans ?_
      by_cases hexp : par.gam * (1 / (r - par.a)) > expFloor
      · rw [if_pos hexp]
        refine (if_pos hexp).trans (Prod.ext rfl ?_)
        dsimp only [edipConstants]
        ring
      · rw [if_neg hexp, zero_mul]
        exact if_neg hexp
  simp only [hform]
  exact hasDerivAt_cut ha fun _ => hasDerivAt_guardedExp (hasDerivAt_inverse ha) hfloor

end Slopes

section Gradient
variable {n : ℕ} (par : EdipParams ℝ) (H : Matrix (Fin 3) (Fin 3) ℝ) (R : Places (Fin n) (Fin 3))

section Terms
variable (B : Finset (Bond (Fin n) (Fin 3))) (z : ℝ) (b c : Bond (Fin n) (Fin 3))

noncomputable def coordination (a : Fin n) : ℝ :=
  ∑ b ∈ rowOf B a, (coordTerm par (edipConstants par) (length H R b)).1

noncomputable def pairEnergy (r : ℝ) : ℝ :=
  if r ≥ par.a then 0 else ((pairRadial par r).2.1 - (bondOrder par z).1) * (pairRadial par r).1

noncomputable def leg : ℝ × ℝ := legRadial par (edipConstants par) (length H R b)

/-- `H` and its slope at the cosine of two bonds. -/
noncomputable def angle : ℝ × ℝ :=
  let shape := angularShape par (edipConstants par) z
  angularTerm par (edipConstants par) shape.1 shape.2.2.1 (cosine H R b c)

/-- A triplet whose ends are images of one atom is dropped. -/
noncomputable def tripletEnergy : ℝ :=
  if b.dst = c.dst then 0 else (leg par H R b).1 * (leg par H R c).1 * (angle par H R z b c).1

/-- The slope of a triplet at the end of its first leg. -/
noncomputable def legSlope : Fin 3 → ℝ :=
  if b.dst = c.dst then 0
  else ((leg par H R b).2 * (leg par H R c).1 * (angle par H R z b c).1) • unit H R b +
    ((leg par H R b).1 * (leg par H R c).1 *
      ((angle par H R z b c).2 * (angularShape par (edipConstants par) z).1)) • cosineSlope H R b c

/-- The slope of a triplet in the coordination of its centre. -/
noncomputable def tripletSlope : ℝ :=
  let shape := angularShape par (edipConstants par) z
  if b.dst = c.dst then 0
  else (leg par H R b).1 * (leg par H R c).1 * (angle par H R z b c).2 *
    (shape.2.1 * (cosine H R b c + shape.2.2.1) + shape.1 * shape.2.2.2)

/-- The energy of each atom at its coordination, as it is published. -/
noncomputable def edipEnergyOver : ℝ :=
  ∑ a, (∑ b ∈ rowOf B a, pairEnergy par (coordination par H R B a) (length H R b) +
    ∑ b ∈ rowOf B a, ∑ c ∈ (rowOf B a).erase b,
      1 / 2 * tripletEnergy par H R (coordination par H R B a) b c)

/-- The slope of the energy of an atom in its coordination. -/
noncomputable def energySlope (a : Fin n) : ℝ :=
  let z := coordination par H R B a
  ∑ b ∈ rowOf B a, -((bondOrder par z).2 * pairEnvelope par (length H R b)) +
    ∑ b ∈ rowOf B a, ∑ c ∈ (rowOf B a).erase b, 1 / 2 * tripletSlope par H R z b c

/-- What a pair pulls at its bond. -/
noncomputable def pairPull : Fin 3 → ℝ :=
  (pairPowerSlope par (length H R b) -
      (bondOrder par (coordination par H R B b.src)).1 * pairEnvelopeSlope par (length H R b) +
    energySlope par H R B b.src * (coordTerm par (edipConstants par) (length H R b)).2) • unit H R b

noncomputable def pulled : Fin 3 → ℝ :=
  pairPull par H R B b +
    ∑ c ∈ (rowOf B b.src).erase b, legSlope par H R (coordination par H R B b.src) b c

end Terms

noncomputable def edipEnergy : ℝ := edipEnergyOver par H R (within H R par.cutoff)

/-- Positions at which no pair is at one of the radii of the potential or at an underflow of an
exponential, and no two atoms coincide. -/
structure Regular : Prop where
  off_cutoff : ∀ b : Bond (Fin n) (Fin 3), b.src ≠ b.dst → length H R b ≠ par.cutoff
  apart : ∀ b ∈ within H R par.cutoff, 0 < length H R b
  off_radii : ∀ b ∈ within H R par.cutoff,
    length H R b ≠ par.a ∧ length H R b ≠ par.b ∧ length H R b ≠ par.c
  off_floor : ∀ b ∈ within H R par.cutoff, coordArgument par (length H R b) ≠ expFloor ∧
    par.sig * (1 / (length H R b - par.a)) ≠ expFloor ∧
    par.gam * (1 / (length H R b - par.a)) ≠ expFloor

variable {par H R} {B : Finset (Bond (Fin n) (Fin 3))} {z : ℝ} {b c : Bond (Fin n) (Fin 3)}

theorem pairEnergy_eq (z r : ℝ) :
    pairEnergy par z r = pairPower par r - (bondOrder par z).1 * pairEnvelope par r := by
  rw [pairEnergy, pairPower, pairEnvelope]
  split
  · rw [mul_zero, sub_zero]
  · ring

/-- A triplet at a coordination that moves along. -/
theorem hasFDerivAt_tripletEnergy {Z : Places (Fin n) (Fin 3) → ℝ} {dZ : Places (Fin n) (Fin 3) →L[ℝ] ℝ}
    (hZ : HasFDerivAt Z dZ R) (hb : 0 < length H R b) (hc : 0 < length H R c)
    (hlegb : HasDerivAt (fun r => (legRadial par (edipConstants par) r).1) (leg par H R b).2 (length H R b))
    (hlegc : HasDerivAt (fun r => (legRadial par (edipConstants par) r).1) (leg par H R c).2 (length H R c)) :
    HasFDerivAt (fun R => tripletEnergy par H R (Z R) b c)
      (pull b (legSlope par H R (Z R) b c) + pull c (legSlope par H R (Z R) c b) +
        tripletSlope par H R (Z R) b c • dZ) R := by
  by_cases hsame : b.dst = c.dst
  · simp only [tripletEnergy, legSlope, tripletSlope, if_pos hsame, if_pos hsame.symm, map_zero, zero_smul,
      add_zero]
    exact hasFDerivAt_const 0 R
  have hcos := hasFDerivAt_cosine H hb hc
  have hwinv : HasFDerivAt (fun R => (angularShape par (edipConstants par) (Z R)).1) _ R :=
    (hasDerivAt_winv (Z R)).comp_hasFDerivAt R hZ
  have htau : HasFDerivAt (fun R => (angularShape par (edipConstants par) (Z R)).2.2.1) _ R :=
    (hasDerivAt_tau (Z R)).comp_hasFDerivAt R hZ
  have hangle : HasFDerivAt (fun R => (angle par H R (Z R) b c).1) _ R :=
    hasFDerivAt_angularTerm ((hcos.fun_add htau).fun_mul hwinv)
  have hlegs := (hasFDerivAt_radial H hb hlegb).fun_mul (hasFDerivAt_radial H hc hlegc)
  have hall := hlegs.fun_mul hangle
  simp only [tripletEnergy, legSlope, tripletSlope, if_neg hsame, if_neg (Ne.symm hsame)]
  refine hall.congr_fderiv ?_
  have hcomm : angle par H R (Z R) c b = angle par H R (Z R) b c := by
    rw [angle, angle, cosine_comm]
  rw [hcomm]
  simp only [leg, angle, map_add, map_smul]
  ext u
  simp only [add_apply, smul_apply, smul_eq_mul]
  ring

/-- The slopes that the terms of a bond need. -/
structure Slopes (par : EdipParams ℝ) (r : ℝ) : Prop where
  coord : HasDerivAt (fun r => (coordTerm par (edipConstants par) r).1)
    (coordTerm par (edipConstants par) r).2 r
  power : HasDerivAt (pairPower par) (pairPowerSlope par r) r
  envelope : HasDerivAt (pairEnvelope par) (pairEnvelopeSlope par r) r
  leg : HasDerivAt (fun r => (legRadial par (edipConstants par) r).1)
    (legRadial par (edipConstants par) r).2 r

theorem Regular.slopes (h : Regular par H R) (hcap : 0 < par.cap_b) (hb : b ∈ within H R par.cutoff) :
    Slopes par (length H R b) := by
  obtain ⟨ha, hb', hc⟩ := h.off_radii b hb
  obtain ⟨hcoord, hpair, hleg⟩ := h.off_floor b hb
  exact ⟨hasDerivAt_coordTerm hb' ha hc hcoord, hasDerivAt_pairPower (h.apart b hb) hcap ha hpair,
    hasDerivAt_pairEnvelope ha hpair, hasDerivAt_legRadial ha hleg⟩

variable (hpos : ∀ b ∈ B, 0 < length H R b) (hslopes : ∀ b ∈ B, Slopes par (length H R b))
include hpos hslopes

/-- What the coordination of an atom pulls at its bonds. -/
theorem hasFDerivAt_coordination (a : Fin n) : HasFDerivAt (fun R => coordination par H R B a)
    (∑ b ∈ rowOf B a, pull b ((coordTerm par (edipConstants par) (length H R b)).2 • unit H R b)) R := by
  refine HasFDerivAt.fun_sum fun b hb => ?_
  have hbB := (mem_rowOf.mp hb).1
  exact hasFDerivAt_radial H (hpos b hbB) (hslopes b hbB).coord

/-- The energy of one atom: its bonds at a fixed coordination, and its slope along the coordination. -/
theorem hasFDerivAt_atom (a : Fin n) : HasFDerivAt
    (fun R => ∑ b ∈ rowOf B a, pairEnergy par (coordination par H R B a) (length H R b) +
      ∑ b ∈ rowOf B a, ∑ c ∈ (rowOf B a).erase b,
        1 / 2 * tripletEnergy par H R (coordination par H R B a) b c)
    (∑ b ∈ rowOf B a, pull b (pairPull par H R B b) + ∑ b ∈ rowOf B a, ∑ c ∈ (rowOf B a).erase b,
      (1 / 2 : ℝ) • (pull b (legSlope par H R (coordination par H R B b.src) b c) +
        pull c (legSlope par H R (coordination par H R B c.src) c b))) R := by
  have hZ := hasFDerivAt_coordination hpos hslopes a
  have horder : HasFDerivAt (fun R => (bondOrder par (coordination par H R B a)).1) _ R :=
    (hasDerivAt_bondOrder _).comp_hasFDerivAt R hZ
  have hpairs := HasFDerivAt.fun_sum (u := rowOf B a) fun b hb =>
    (hasFDerivAt_radial H (hpos b (mem_rowOf.mp hb).1) (hslopes b (mem_rowOf.mp hb).1).power).fun_sub
      (horder.fun_mul
        (hasFDerivAt_radial H (hpos b (mem_rowOf.mp hb).1) (hslopes b (mem_rowOf.mp hb).1).envelope))
  have htriplets := HasFDerivAt.fun_sum (u := rowOf B a) fun b hb =>
    HasFDerivAt.fun_sum (u := (rowOf B a).erase b) fun c hc =>
      (hasFDerivAt_tripletEnergy (b := b) (c := c) hZ (hpos b (mem_rowOf.mp hb).1)
        (hpos c (mem_rowOf.mp (Finset.mem_of_mem_erase hc)).1) (hslopes b (mem_rowOf.mp hb).1).leg
        (hslopes c (mem_rowOf.mp (Finset.mem_of_mem_erase hc)).1).leg).const_mul (1 / 2)
  simp only [pairEnergy_eq]
  refine (hpairs.fun_add htriplets).congr_fderiv ?_
  set z := coordination par H R B a with hz
  set dZ := ∑ b ∈ rowOf B a, pull b ((coordTerm par (edipConstants par) (length H R b)).2 • unit H R b)
  have hrow : ∑ b ∈ rowOf B a, pull b (pairPull par H R B b) =
      ∑ b ∈ rowOf B a, pull b ((pairPowerSlope par (length H R b) -
        (bondOrder par z).1 * pairEnvelopeSlope par (length H R b)) • unit H R b) +
      energySlope par H R B a • dZ := by
    rw [Finset.smul_sum, ← Finset.sum_add_distrib]
    refine Finset.sum_congr rfl fun b hb => ?_
    rw [pairPull, (mem_rowOf.mp hb).2, ← hz, add_smul, map_add, mul_smul (energySlope par H R B a),
      map_smul _ (energySlope par H R B a)]
  have hslope : energySlope par H R B a • dZ =
      ∑ b ∈ rowOf B a, (-((bondOrder par z).2 * pairEnvelope par (length H R b))) • dZ +
        ∑ b ∈ rowOf B a, ∑ c ∈ (rowOf B a).erase b, (1 / 2 * tripletSlope par H R z b c) • dZ := by
    simp only [energySlope, ← hz, add_smul, Finset.sum_smul]
  have hpair : ∀ b, pull b (pairPowerSlope par (length H R b) • unit H R b) -
      ((bondOrder par z).1 • pull b (pairEnvelopeSlope par (length H R b) • unit H R b) +
        pairEnvelope par (length H R b) • (bondOrder par z).2 • dZ) =
      pull b ((pairPowerSlope par (length H R b) -
        (bondOrder par z).1 * pairEnvelopeSlope par (length H R b)) • unit H R b) +
      (-((bondOrder par z).2 * pairEnvelope par (length H R b))) • dZ := by
    intro b
    simp only [map_smul]
    module
  rw [hrow, hslope, Finset.sum_congr rfl fun b _ => hpair b, Finset.sum_add_distrib]
  have htriplet : ∑ b ∈ rowOf B a, ∑ c ∈ (rowOf B a).erase b, (1 / 2 : ℝ) •
      (pull b (legSlope par H R z b c) + pull c (legSlope par H R z c b) + tripletSlope par H R z b c • dZ) =
      ∑ b ∈ rowOf B a, ∑ c ∈ (rowOf B a).erase b, (1 / 2 : ℝ) •
        (pull b (legSlope par H R (coordination par H R B b.src) b c) +
          pull c (legSlope par H R (coordination par H R B c.src) c b)) +
      ∑ b ∈ rowOf B a, ∑ c ∈ (rowOf B a).erase b, (1 / 2 * tripletSlope par H R z b c) • dZ := by
    rw [← Finset.sum_add_distrib]
    refine Finset.sum_congr rfl fun b hb => ?_
    rw [← Finset.sum_add_distrib]
    refine Finset.sum_congr rfl fun c hc => ?_
    rw [(mem_rowOf.mp hb).2, (mem_rowOf.mp (Finset.mem_of_mem_erase hc)).2, ← hz, smul_add, smul_smul]
  rw [htriplet]
  abel

theorem hasFDerivAt_edipEnergyOver :
    HasFDerivAt (fun R => edipEnergyOver par H R B) (∑ b ∈ B, pull b (pulled par H R B b)) R := by
  refine (HasFDerivAt.fun_sum fun a _ => hasFDerivAt_atom hpos hslopes a).congr_fderiv ?_
  rw [Finset.sum_add_distrib, sum_rows B,
    sum_pairs_pull B fun b c => legSlope par H R (coordination par H R B b.src) b c, ← Finset.sum_add_distrib]
  exact Finset.sum_congr rfl fun b _ => (map_add _ _ _).symm

end Gradient

section Gather
variable {n : ℕ} {par : EdipParams ℝ} {H : Matrix (Fin 3) (Fin 3) ℝ} {R : Places (Fin n) (Fin 3)}
  {t : NeighborTable ℝ} {B : Finset (Bond (Fin n) (Fin 3))} {slot : Bond (Fin n) (Fin 3) → ℕ}
  {b c : Bond (Fin n) (Fin 3)}

/-- A leg outside `bg` adds nothing. -/
theorem leg_far {r : ℝ} (hr : r ≥ par.a) : legRadial par (edipConstants par) r = (0, 0) := if_pos hr

theorem legGradient_eq (b c : Bond (Fin n) (Fin 3)) (hne : b.dst ≠ c.dst) (z : ℝ) :
    legGradient (leg par H R b).1 (leg par H R b).2 (unit H R b) (1 / length H R b) (leg par H R c).1
      (unit H R c) (unit H R b ⬝ᵥ unit H R c) (angle par H R z b c).1
      ((angle par H R z b c).2 * (angularShape par (edipConstants par) z).1) = legSlope par H R z b c := by
  funext d
  rw [legSlope, if_neg hne]
  simp only [legGradient, cosineSlope, cosine, Pi.add_apply, Pi.smul_apply, Pi.sub_apply, smul_eq_mul]
  ring

theorem legSlope_eq_zero {z : ℝ} (h : b.dst = c.dst ∨ length H R b ≥ par.a ∨ length H R c ≥ par.a) :
    legSlope par H R z b c = 0 := by
  rw [legSlope]
  split
  · rfl
  · rename_i hne
    rcases h with heq | hb | hc
    · exact absurd heq hne
    · simp [leg, leg_far hb]
    · simp [leg, leg_far hc]

/-- Half of what two entries of a row add to the energy of their centre and to its slope. -/
noncomputable def tripletAt (par : EdipParams ℝ) (t : NeighborTable ℝ) (z : ℝ) (s k : ℕ) : ℝ × ℝ :=
  let shape := angularShape par (edipConstants par) z
  let lcos := t.unitVec s ⬝ᵥ t.unitVec k
  let turn := angularTerm par (edipConstants par) shape.1 shape.2.2.1 lcos
  let gg := (legRadial par (edipConstants par) (t.dist s)).1 * (legRadial par (edipConstants par) (t.dist k)).1
  if t.idx s = t.idx k then 0
  else (1 / 2 * (gg * turn.1), 1 / 2 * (gg * turn.2 * (shape.2.1 * (lcos + shape.2.2.1) + shape.1 * shape.2.2.2)))

theorem tripletAt_slots (h : Carries t H R B slot) (hb : b ∈ B) (hc : c ∈ B) (z : ℝ) :
    tripletAt par t z (slot b) (slot c) =
      (1 / 2 * tripletEnergy par H R z b c, 1 / 2 * tripletSlope par H R z b c) := by
  have hidx : t.idx (slot b) = t.idx (slot c) ↔ b.dst = c.dst := by
    rw [h.idx hb, h.idx hc, Nat.add_right_cancel_iff, Fin.val_inj]
  rw [tripletAt, h.dist hb, h.dist hc, h.unitVec hb, h.unitVec hc, tripletEnergy, tripletSlope]
  by_cases hsame : b.dst = c.dst
  · rw [if_pos (hidx.mpr hsame), if_pos hsame, if_pos hsame, mul_zero]
    rfl
  · rw [if_neg (hidx.not.mpr hsame), if_neg hsame, if_neg hsame]
    rfl

variable (par) in
theorem atomTerms_eq (h : Carries t H R B slot) (i : Fin n) :
    atomTerms par (edipConstants par) t (i + 1) =
      (coordination par H R B i,
        ∑ b ∈ rowOf B i, pairEnergy par (coordination par H R B i) (length H R b) +
          ∑ b ∈ rowOf B i, ∑ c ∈ (rowOf B i).erase b,
            1 / 2 * tripletEnergy par H R (coordination par H R B i) b c,
        energySlope par H R B i) := by
  have hz : (t.overRow (i + 1) fun s => (coordTerm par (edipConstants par) (t.dist s)).1) =
      coordination par H R B i := by
    rw [h.overRow i]
    refine Finset.sum_congr rfl fun b hb => ?_
    rw [h.dist (mem_rowOf.mp hb).1]
  simp only [atomTerms]
  rw [hz]
  set z := coordination par H R B i with hzdef
  have hpairs : (t.overRow (i + 1) fun s => if t.dist s ≥ par.a then (0 : ℝ × ℝ) else
      (((pairRadial par (t.dist s)).2.1 - (bondOrder par z).1) * (pairRadial par (t.dist s)).1,
        -((bondOrder par z).2 * (pairRadial par (t.dist s)).1))) =
      ∑ b ∈ rowOf B i, (pairEnergy par z (length H R b),
        -((bondOrder par z).2 * pairEnvelope par (length H R b))) := by
    rw [h.overRow i]
    refine Finset.sum_congr rfl fun b hb => ?_
    rw [h.dist (mem_rowOf.mp hb).1, pairEnergy, pairEnvelope]
    split
    · rw [mul_zero, neg_zero]
      rfl
    · rfl
  have hboth : ∀ s k, tripletAt par t z s k + tripletAt par t z k s =
      if t.idx s = t.idx k then (0 : ℝ × ℝ)
      else ((legRadial par (edipConstants par) (t.dist s)).1 * (legRadial par (edipConstants par) (t.dist k)).1 *
          (angularTerm par (edipConstants par) (angularShape par (edipConstants par) z).1
            (angularShape par (edipConstants par) z).2.2.1 (t.unitVec s ⬝ᵥ t.unitVec k)).1,
        (legRadial par (edipConstants par) (t.dist s)).1 * (legRadial par (edipConstants par) (t.dist k)).1 *
          (angularTerm par (edipConstants par) (angularShape par (edipConstants par) z).1
            (angularShape par (edipConstants par) z).2.2.1 (t.unitVec s ⬝ᵥ t.unitVec k)).2 *
          ((angularShape par (edipConstants par) z).2.1 *
              (t.unitVec s ⬝ᵥ t.unitVec k + (angularShape par (edipConstants par) z).2.2.1) +
            (angularShape par (edipConstants par) z).1 * (angularShape par (edipConstants par) z).2.2.2)) := by
    intro s k
    by_cases hsame : t.idx s = t.idx k
    · simp only [tripletAt, if_pos hsame, if_pos hsame.symm, add_zero]
    · simp only [tripletAt, if_neg hsame, if_neg (Ne.symm hsame), dotProduct_comm (t.unitVec k),
        Prod.mk_add_mk]
      refine Prod.ext ?_ ?_
      · ring
      · ring
  have hfar : ∀ s k, ¬ ¬ t.dist s ≥ par.a ∨ ¬ ¬ t.dist k ≥ par.a → tripletAt par t z s k = 0 := by
    intro s k hfar
    rw [not_not, not_not] at hfar
    rw [tripletAt]
    split
    · rfl
    · rcases hfar with hs | hk
      · simp [leg_far hs]
      · simp [leg_far hk]
  have htriplets := h.pairs_where i (fun s => ¬ t.dist s ≥ par.a) (tripletAt par t z) hfar
  simp only [hboth] at htriplets
  have hbonds : ∑ b ∈ rowOf B i, ∑ c ∈ (rowOf B i).erase b, tripletAt par t z (slot b) (slot c) =
      ∑ b ∈ rowOf B i, ∑ c ∈ (rowOf B i).erase b,
        (1 / 2 * tripletEnergy par H R z b c, 1 / 2 * tripletSlope par H R z b c) :=
    Finset.sum_congr rfl fun b hb => Finset.sum_congr rfl fun c hc =>
      tripletAt_slots h (mem_rowOf.mp hb).1 (mem_rowOf.mp (Finset.mem_of_mem_erase hc)).1 z
  rw [hpairs, collectLegs, overPairs_map]
  refine Prod.ext rfl (Prod.ext ?_ ?_)
  · refine (congrArg Prod.fst (congrArg (_ + ·) (htriplets.trans hbonds))).trans ?_
    simp only [Prod.fst_add, Prod.fst_sum]
  · refine (congrArg Prod.snd (congrArg (_ + ·) (htriplets.trans hbonds))).trans ?_
    simp only [Prod.snd_add, Prod.snd_sum, energySlope, ← hzdef]

variable (par) in
/-- What two legs of atom `i` give it, for both orders. -/
theorem centre_eq (h : Carries t H R B slot) (i : Fin n) (z : ℝ) :
    (overPairs (collectLegs par (edipConstants par) t (i + 1)) fun j k =>
      if j.who = k.who then (0 : Fin 3 → ℝ)
      else
        legGradient j.g j.dg j.u j.rinv k.g k.u (j.u ⬝ᵥ k.u)
          (angularTerm par (edipConstants par) (angularShape par (edipConstants par) z).1
            (angularShape par (edipConstants par) z).2.2.1 (j.u ⬝ᵥ k.u)).1
          ((angularTerm par (edipConstants par) (angularShape par (edipConstants par) z).1
            (angularShape par (edipConstants par) z).2.2.1 (j.u ⬝ᵥ k.u)).2 *
              (angularShape par (edipConstants par) z).1) +
        legGradient k.g k.dg k.u k.rinv j.g j.u (j.u ⬝ᵥ k.u)
          (angularTerm par (edipConstants par) (angularShape par (edipConstants par) z).1
            (angularShape par (edipConstants par) z).2.2.1 (j.u ⬝ᵥ k.u)).1
          ((angularTerm par (edipConstants par) (angularShape par (edipConstants par) z).1
            (angularShape par (edipConstants par) z).2.2.1 (j.u ⬝ᵥ k.u)).2 *
              (angularShape par (edipConstants par) z).1)) =
    ∑ b ∈ rowOf B i, ∑ c ∈ (rowOf B i).erase b, legSlope par H R z b c := by
  let pullAt (s k : ℕ) : Fin 3 → ℝ :=
    let lcos := t.unitVec s ⬝ᵥ t.unitVec k
    let turn := angularTerm par (edipConstants par) (angularShape par (edipConstants par) z).1
      (angularShape par (edipConstants par) z).2.2.1 lcos
    let self := legRadial par (edipConstants par) (t.dist s)
    if t.idx s = t.idx k then 0
    else legGradient self.1 self.2 (t.unitVec s) (1 / t.dist s)
      (legRadial par (edipConstants par) (t.dist k)).1 (t.unitVec k) lcos turn.1
      (turn.2 * (angularShape par (edipConstants par) z).1)
  have hfar : ∀ s k, ¬ ¬ t.dist s ≥ par.a ∨ ¬ ¬ t.dist k ≥ par.a → pullAt s k = 0 := by
    intro s k hfar
    rw [not_not, not_not] at hfar
    simp only [pullAt]
    split
    · rfl
    · funext d
      rcases hfar with hs | hk
      · simp [legGradient, leg_far hs]
      · simp [legGradient, leg_far hk]
  have hloop := h.pairs_where i (fun s => ¬ t.dist s ≥ par.a) pullAt hfar
  rw [collectLegs, overPairs_map]
  refine Eq.trans ?_ (hloop.trans ?_)
  · congr 1
    funext s k
    by_cases hsame : t.idx s = t.idx k
    · simp only [pullAt, if_pos hsame, if_pos hsame.symm, add_zero]
    · simp only [pullAt, if_neg hsame, if_neg (Ne.symm hsame), dotProduct_comm (t.unitVec k)]
  · refine Finset.sum_congr rfl fun b hb => Finset.sum_congr rfl fun c hc => ?_
    have hbB := (mem_rowOf.mp hb).1
    have hcB := (mem_rowOf.mp (Finset.mem_of_mem_erase hc)).1
    have hidx : t.idx (slot b) = t.idx (slot c) ↔ b.dst = c.dst := by
      rw [h.idx hbB, h.idx hcB, Nat.add_right_cancel_iff, Fin.val_inj]
    simp only [pullAt]
    rw [h.dist hbB, h.dist hcB, h.unitVec hbB, h.unitVec hcB]
    by_cases hsame : b.dst = c.dst
    · rw [if_pos (hidx.mpr hsame), legSlope_eq_zero (Or.inl hsame)]
    · rw [if_neg (hidx.not.mpr hsame)]
      exact legGradient_eq b c hsame z

/-- The triplets around the neighbours of an atom. -/
theorem outer_eq (h : Carries t H R B slot) (z : ℕ → ℝ)
    (hz : ∀ a : Fin n, z (a + 1) = coordination par H R B a) (i : Fin n) :
    (t.overRow (i + 1) fun s =>
      if t.dist s ≥ par.a then (0 : Fin 3 → ℝ)
      else t.overRow (t.idx s) fun sn =>
        if t.idx sn = i + 1 then 0
        else if t.dist sn ≥ par.a then 0
        else legGradient (legRadial par (edipConstants par) (t.dist s)).1
          (legRadial par (edipConstants par) (t.dist s)).2 (t.backVec s) (1 / t.dist s)
          (legRadial par (edipConstants par) (t.dist sn)).1 (t.unitVec sn) (t.backVec s ⬝ᵥ t.unitVec sn)
          (angularTerm par (edipConstants par) (angularShape par (edipConstants par) (z (t.idx s))).1
            (angularShape par (edipConstants par) (z (t.idx s))).2.2.1 (t.backVec s ⬝ᵥ t.unitVec sn)).1
          ((angularTerm par (edipConstants par) (angularShape par (edipConstants par) (z (t.idx s))).1
            (angularShape par (edipConstants par) (z (t.idx s))).2.2.1 (t.backVec s ⬝ᵥ t.unitVec sn)).2 *
              (angularShape par (edipConstants par) (z (t.idx s))).1)) =
    ∑ b ∈ rowOf B i, ∑ c ∈ (rowOf B b.dst).erase b.rev,
      legSlope par H R (coordination par H R B b.dst) b.rev c := by
  rw [h.overRow i]
  refine Finset.sum_congr rfl fun b hb => ?_
  obtain ⟨hbB, hsrc⟩ := mem_rowOf.mp hb
  have hself : legSlope par H R (coordination par H R B b.dst) b.rev b.rev = 0 :=
    legSlope_eq_zero (Or.inl rfl)
  rw [h.dist hbB, h.idx hbB, h.backVec hbB, hz, Finset.sum_erase _ hself]
  split
  · rename_i hfar
    refine (Finset.sum_eq_zero fun c _ => legSlope_eq_zero (Or.inr (Or.inl ?_))).symm
    rwa [length_rev]
  · rw [h.overRow b.dst]
    refine Finset.sum_congr rfl fun c hc => ?_
    have hcB := (mem_rowOf.mp hc).1
    have hidx : t.idx (slot c) = i + 1 ↔ b.rev.dst = c.dst := by
      rw [h.idx hcB, Nat.add_right_cancel_iff, Fin.val_inj, Bond.rev_dst, hsrc, eq_comm]
    rw [h.dist hcB, h.unitVec hcB]
    by_cases hsame : b.rev.dst = c.dst
    · rw [if_pos (hidx.mpr hsame), legSlope_eq_zero (Or.inl hsame)]
    · rw [if_neg (hidx.not.mpr hsame), ← length_rev H R b]
      split
      · rename_i hfar
        rw [legSlope_eq_zero (Or.inr (Or.inr hfar))]
      · exact legGradient_eq b.rev c hsame _

/-- The pair and coordination channels of both ends of a bond. -/
theorem pairPull_sub (h : Carries t H R B slot) {i : Fin n} (hb : b ∈ rowOf B i)
    (z dedz : ℕ → ℝ) (hz : ∀ a : Fin n, z (a + 1) = coordination par H R B a)
    (hdedz : ∀ a : Fin n, dedz (a + 1) = energySlope par H R B a) :
    (if t.dist (slot b) < par.a then fun d =>
      -((pairRadial par (t.dist (slot b))).1 * ((pairRadial par (t.dist (slot b))).2.1 *
          (pairRadial par (t.dist (slot b))).2.2.1 + ((pairRadial par (t.dist (slot b))).2.1 -
            (bondOrder par (z (i + 1))).1) * (pairRadial par (t.dist (slot b))).2.2.2) *
          t.unitVec (slot b) d) -
        (pairRadial par (t.dist (slot b))).1 * ((pairRadial par (t.dist (slot b))).2.1 *
          (pairRadial par (t.dist (slot b))).2.2.1 + ((pairRadial par (t.dist (slot b))).2.1 -
            (bondOrder par (z (t.idx (slot b)))).1) * (pairRadial par (t.dist (slot b))).2.2.2) *
          t.unitVec (slot b) d
      else (0 : Fin 3 → ℝ)) + (fun d => (dedz (i + 1) + dedz (t.idx (slot b))) *
        (coordTerm par (edipConstants par) (t.dist (slot b))).2 * t.unitVec (slot b) d) =
    pairPull par H R B b - pairPull par H R B b.rev := by
  obtain ⟨hbB, hsrc⟩ := mem_rowOf.mp hb
  rw [h.dist hbB, h.idx hbB, h.unitVec hbB, hz, hz, hdedz, hdedz]
  funext d
  simp only [pairPull, length_rev, unit_rev, Bond.rev_src, hsrc, pairPowerSlope, pairEnvelopeSlope,
    Pi.add_apply, Pi.sub_apply, Pi.smul_apply, Pi.neg_apply, smul_eq_mul]
  by_cases hfar : length H R b ≥ par.a
  · rw [if_neg (not_lt.mpr hfar), if_pos hfar, if_pos hfar, Pi.zero_apply]
    ring
  · rw [if_pos (not_le.mp hfar), if_neg hfar, if_neg hfar]
    ring

theorem atomForce_eq (h : Carries t H R B slot) (z dedz : ℕ → ℝ)
    (hz : ∀ a : Fin n, z (a + 1) = coordination par H R B a)
    (hdedz : ∀ a : Fin n, dedz (a + 1) = energySlope par H R B a) (i : Fin n) :
    atomForce par (edipConstants par) t z dedz (i + 1) = gathered B (pulled par H R B) i := by
  simp only [atomForce]
  have hcentre := centre_eq par h i (z (i + 1))
  have houter := outer_eq h z hz i
  refine (congrArg₂ (· - ·) (congrArg₂ (· + ·) (h.overRow i _) hcentre) houter).trans ?_
  rw [Finset.sum_congr rfl fun b hb => pairPull_sub h hb z dedz hz hdedz, ← Finset.sum_add_distrib,
    ← Finset.sum_sub_distrib, gathered]
  refine Finset.sum_congr rfl fun b hb => ?_
  rw [pulled, pulled, Bond.rev_src, (mem_rowOf.mp hb).2, hz]
  abel

/-- A call that returns zero, whatever the table served before, gives the published energy and forces that
are exactly minus its gradient and add up to zero. -/
theorem edip_conservative {v : Vesin ℝ} (calls : List (TableCall ℝ)) (par : EdipParams ℝ)
    (R : Places (Fin n) (Fin 3)) (cell : Fin 3 → Fin 3 → ℝ) (heap : Heap ℝ)
    (hlist : ((table v).after (.fresh v) calls).ReportsFull R cell par.cutoff)
    (hcell : (cellRows cell).det ≠ 0) (hcap : 0 < par.cap_b) (hregular : Regular par (cellRows cell) R) :
    let out := (edipEnergyForces par ((table v).after (.fresh v) calls) ⟨3, n, R, cell⟩ heap).1
    out.status = 0 → out.energy = edipEnergy par (cellRows cell) R ∧
      IsForce (fun R => edipEnergy par (cellRows cell) R) out.forces R := by
  intro out hstatus
  obtain ⟨t, slot, hcarries, hkernel⟩ := evaluate_carries hlist hcell
    hregular.off_cutoff (fun e he => by split at he <;> cases he; decide) (fun t e he => by cases he) hstatus
  set B := within (cellRows cell) R par.cutoff with hB
  have hfull : Full B := full_within hcell R par.cutoff
  obtain ⟨henergy, hforces⟩ := Prod.mk.inj (Except.ok.inj hkernel)
  have hterms := atomTerms_eq par hcarries
  have hforce := atomForce_eq hcarries (fun i => (atomTerms par (edipConstants par) t i).1)
    (fun i => (atomTerms par (edipConstants par) t i).2.2) (fun a => by rw [hterms a])
    (fun a => by rw [hterms a])
  constructor
  · refine henergy.symm.trans ?_
    simp only [hterms]
    rw [edipEnergy, edipEnergyOver]
  · have hlocal : (fun R => edipEnergy par (cellRows cell) R) =ᶠ[nhds R]
        fun R => edipEnergyOver par (cellRows cell) R B := by
      filter_upwards [eventually_within_eq hcell hregular.off_cutoff] with R' hR'
      rw [edipEnergy, hR']
    have hgradient := hasFDerivAt_edipEnergyOver hregular.apart fun b hb => hregular.slopes hcap hb
    exact ((isForce_gathered hfull hgradient).congr hlocal).of_eq
      (hforces.symm.trans (funext fun i => hforce i))

theorem cellWidths_cube {L : ℝ} (hL : 0 < L) (k : Fin 3) : cellWidths (cube L) k = L := by
  have hroot : Real.sqrt (L * L * (L * L)) = L * L := Real.sqrt_mul_self (mul_nonneg hL.le hL.le)
  have hwidth : abs L * (L * L) / (L * L) = L := by
    rw [abs_of_pos hL]
    field_simp
  fin_cases k <;>
    simp [cellWidths, cross, cube, dotProduct, Fin.sum_univ_three, sqrt, hroot, hL, hwidth]

/-- A triangle in a wide cube, on a table that has served two atoms; its long side is in the range of
the coordination. -/
theorem edip_conservative_trimer :
    let out := (edipEnergyForces {} ((table listing).after (.fresh listing) (servedTwo 3))
      ⟨3, 3, trimer, cube 100⟩ emptyHeap).1
    out.energy = edipEnergy {} (cellRows (cube 100)) trimer ∧
      IsForce (fun R => edipEnergy {} (cellRows (cube 100)) R) out.forces trimer := by
  have hcutoff : (EdipParams.cutoff {} : ℝ) = 3.1213820 := max_self _
  have hcube : (cellRows (cube 100)).det ≠ 0 := det_cube (by norm_num)
  have hwithin : ∀ b ∈ within (cellRows (cube 100)) trimer (EdipParams.cutoff {}),
      IsSide (length (cellRows (cube 100)) trimer b) :=
    fun b hb => (trimer_within (by rw [hcutoff]; norm_num) hb).2
  refine edip_conservative (servedTwo 3) {} trimer (cube 100) emptyHeap
    ((serving_servedTwo 3).reportsFull trimer _) hcube (by norm_num) ⟨?_, ?_, ?_, ?_⟩ ?_
  · exact trimer_off (by rw [hcutoff]; norm_num) (by rw [hcutoff]; norm_num)
  · intro b hb
    linarith [(hwithin b hb).bounds.1]
  · intro b hb
    rcases hwithin b hb with h | h | h <;> rw [h] <;> norm_num
  · intro b hb
    rw [coordArgument, expFloor]
    rcases hwithin b hb with h | h | h <;> rw [h] <;> norm_num
  · have hwide : ¬ min (min (cellWidths (cube 100) 0) (cellWidths (cube 100) 1)) (cellWidths (cube 100) 2) <
        EdipParams.cutoff {} := by
      have hwidths := cellWidths_cube (show (0 : ℝ) < 100 by norm_num)
      rw [hwidths, hwidths, hwidths, min_self, min_self, hcutoff]
      norm_num
    simp only [edipEnergyForces]
    rw [if_neg hwide]
    exact listing_evaluate (serving_servedTwo 3) _ _ _ hcube fun t => ⟨_, rfl⟩

end Gather
end Rgpot.Fortran.Edip
