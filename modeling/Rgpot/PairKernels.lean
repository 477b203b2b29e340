import Rgpot.Lib.SecondDerivative
import Rgpot.LennardJones.Energy
import Rgpot.LennardJones.LJClusterPot
import Rgpot.Morse.MorsePot
import Rgpot.ZBL.Tables

/-! Switched pair kernels: the force scale is the derivative of the energy, and both end smoothly at the
cutoff. -/
namespace Rgpot
open Nlist SecondDerivative Set OutwardRoot

/-- The pair energy ends smoothly at the cutoff, and the force scale is `-E'(r) / r` below it. -/
structure Consistent (kernel : ℝ → PairTerm ℝ) (cutoff : ℝ) : Prop where
  ends : EndsSmoothly (fun r => (kernel (r * r)).energy) cutoff
  force : ∀ r ∈ Ioo 0 cutoff,
    (kernel (r * r)).fscale = -deriv (fun r => (kernel (r * r)).energy) r / r

theorem sqrt_sq_of_pos {r : ℝ} (hr : 0 < r) : (sqrt (r * r) : ℝ) = r := Real.sqrt_mul_self hr.le

/-- A kernel that is written from a function and its derivative. -/
theorem consistent_of_twiceOn {kernel : ℝ → PairTerm ℝ} {cutoff : ℝ} {f f' f'' : ℝ → ℝ}
    (hc : 0 < cutoff) (h : TwiceOn f f' f'' (Ioi 0))
    (hkernel : ∀ r ∈ Ioo 0 cutoff, kernel (r * r) = ⟨f r, -f' r / r⟩)
    (h0 : f cutoff = 0) (h1 : f' cutoff = 0) (h2 : f'' cutoff = 0) : Consistent kernel cutoff := by
  have henergy : EqOn (fun r => (kernel (r * r)).energy) f (Ioo 0 cutoff) := by
    intro r hr
    exact congrArg PairTerm.energy (hkernel r hr)
  constructor
  · exact h.endsSmoothly hc henergy h0 h1 h2
  · intro r hr
    rw [h.deriv_of_eqOn henergy hr, hkernel r hr]

section Switch

/-- The quintic above `r_on`, its slope and its curvature, without the clamp at the cutoff. -/
noncomputable def quintic (sw : QuinticSwitch ℝ) (r : ℝ) : ℝ :=
  let t := ramp sw.r_on sw.inv_width r
  1 + t * t * t * (-10 + t * (15 - 6 * t))

noncomputable def quinticSlope (sw : QuinticSwitch ℝ) (r : ℝ) : ℝ :=
  let t := ramp sw.r_on sw.inv_width r
  t * t * (1 - t) * (1 - t) * -30 * sw.inv_width

noncomputable def quinticCurvature (sw : QuinticSwitch ℝ) (r : ℝ) : ℝ :=
  let t := ramp sw.r_on sw.inv_width r
  t * (1 - t) * (1 - 2 * t) * -60 * sw.inv_width * sw.inv_width

theorem quintic_twiceOn (sw : QuinticSwitch ℝ) :
    TwiceOn (quintic sw) (quinticSlope sw) (quinticCurvature sw) (Ioi 0) := by
  have hpow := fun n => ramp_pow_twiceOn n sw.r_on sw.inv_width (Ioi 0)
  have h := (((TwiceOn.const 1).add ((hpow 0).const_mul (-10))).add ((hpow 1).const_mul 15)).add
    ((hpow 2).const_mul (-6))
  refine h.congr ?_ ?_ ?_ isOpen_Ioi
  · intro r _
    simp only [quintic]
    ring
  · intro r _
    simp only [quinticSlope]
    push_cast
    ring
  · intro r _
    simp only [quinticCurvature]
    push_cast
    ring

variable {cutoff width : ℝ} {sw : QuinticSwitch ℝ}

/-- Below the cutoff the clamp at one does nothing. -/
theorem value_eq_quintic (hw : 0 < width) (hsw : sw = ⟨cutoff - width, 1 / width⟩) {r : ℝ}
    (hr : r < cutoff) : sw.value r = ⟨quintic sw r, quinticSlope sw r⟩ := by
  have hle : ramp sw.r_on sw.inv_width r ≤ 1 := by
    rw [hsw, ramp]
    refine max_le ?_ zero_le_one
    rw [mul_one_div, div_le_one hw]
    linarith
  have hclamp : min (max ((r - sw.r_on) * sw.inv_width) 0) 1 = ramp sw.r_on sw.inv_width r :=
    min_eq_left hle
  simp only [QuinticSwitch.value, hclamp, quintic, quinticSlope, SwitchValue.mk.injEq]
  refine ⟨trivial, ?_⟩
  ring

theorem ramp_at_cutoff (hw : 0 < width) (hsw : sw = ⟨cutoff - width, 1 / width⟩) :
    ramp sw.r_on sw.inv_width cutoff = 1 := by
  have hline : (cutoff - (cutoff - width)) * (1 / width) = 1 := by
    rw [sub_sub_cancel, mul_one_div, div_self hw.ne']
  rw [hsw, ramp, hline]
  exact max_eq_left zero_le_one

/-- A smooth energy times the quintic, with the force written from both slopes. -/
theorem switched_consistent {kernel : ℝ → PairTerm ℝ} {V V' V'' : ℝ → ℝ}
    (hV : TwiceOn V V' V'' (Ioi 0)) (hw : 0 < width) (hle : width ≤ cutoff)
    (hsw : sw = ⟨cutoff - width, 1 / width⟩)
    (hkernel : ∀ r, 0 < r → kernel (r * r) =
      ⟨V r * (sw.value r).s, -(V' r * (sw.value r).s + V r * (sw.value r).dsdr) / r⟩) :
    Consistent kernel cutoff := by
  have hend := ramp_at_cutoff hw hsw
  have h0 : quintic sw cutoff = 0 := by
    simp only [quintic, hend]
    norm_num
  have h1 : quinticSlope sw cutoff = 0 := by
    simp only [quinticSlope, hend]
    ring
  have h2 : quinticCurvature sw cutoff = 0 := by
    simp only [quinticCurvature, hend]
    ring
  refine consistent_of_twiceOn (hw.trans_le hle) (hV.mul (quintic_twiceOn sw)) ?_ ?_ ?_ ?_
  · intro r hr
    rw [hkernel r hr.1, value_eq_quintic hw hsw hr.2]
  · rw [h0, mul_zero]
  · rw [h0, h1, mul_zero, mul_zero, add_zero]
  · rw [h0, h1, h2]
    ring

end Switch

section Constructors
variable {width cutoff : ℝ} {sw : QuinticSwitch ℝ}

/-- A constructor that takes a switch returns when the width passes the check, and then with it. -/
theorem withSwitch_eq_ok_iff {P : Type} {f : QuinticSwitch ℝ → P} {pot : P} (hne : width ≠ 0) :
    (do
      let sw ← if width ≠ 0 then QuinticSwitch.endingAt cutoff width else .ok ⟨0, 0⟩
      return f sw : Except Exn P) = .ok pot ↔
      0 < width ∧ width ≤ cutoff ∧ pot = f ⟨cutoff - width, 1 / width⟩ := by
  rw [if_pos hne, QuinticSwitch.endingAt]
  split
  · next hargs =>
    refine iff_of_false (fun h => by cases h) ?_
    rintro ⟨hw, hle, -⟩
    exact hargs.elim (fun h => h hw) fun h => h hle
  · next hargs =>
    push Not at hargs
    constructor
    · intro h
      exact ⟨hargs.1, hargs.2, (Except.ok.inj h).symm⟩
    · rintro ⟨-, -, rfl⟩
      rfl

theorem ZBLPot.make_eq_ok {c : ZBLConfig ℝ} {pot : ZBLPot ℝ} (h : ZBLPot.make c = .ok pot) :
    0 < pot.cut_inner ∧ pot.cut_inner < pot.cut_global ∧
      pot.cut_inner_sq = pot.cut_inner * pot.cut_inner ∧ pot.cut_global = c.cut_global := by
  unfold ZBLPot.make at h
  split at h
  · cases h
  · rename_i hargs
    push Not at hargs
    cases h
    exact ⟨hargs.1, hargs.2, rfl, rfl⟩

end Constructors

section LennardJones
variable {pot : LJPot ℝ}

theorem bareTerm_twiceOn (u0 psi : ℝ) :
    TwiceOn (fun r => 4 * u0 * psi ^ 12 * r⁻¹ ^ 12 + -(4 * u0 * psi ^ 6) * r⁻¹ ^ 6)
      (fun r => 4 * u0 * psi ^ 12 * -((12 : ℕ) * r⁻¹ ^ 13) +
        -(4 * u0 * psi ^ 6) * -((6 : ℕ) * r⁻¹ ^ 7))
      (fun r => 4 * u0 * psi ^ 12 * ((12 : ℕ) * ((12 : ℕ) + 1) * r⁻¹ ^ 14) +
        -(4 * u0 * psi ^ 6) * ((6 : ℕ) * ((6 : ℕ) + 1) * r⁻¹ ^ 8)) (Ioi 0) :=
  ((inv_pow_twiceOn 12).const_mul _).add ((inv_pow_twiceOn 6).const_mul _)

theorem LJPot.consistent (hw : 0 < pot.switch_width) (hle : pot.switch_width ≤ pot.cuttOffR)
    (hsw : pot.switch = ⟨pot.cuttOffR - pot.switch_width, 1 / pot.switch_width⟩) :
    Consistent pot.kernel pot.cuttOffR := by
  refine switched_consistent (bareTerm_twiceOn pot.u0 pot.psi) hw hle hsw ?_
  intro r hr
  simp only [LJPot.kernel, if_pos hw.ne', LJPot.switchedTerm, LJPot.bareTerm, sqrt_sq_of_pos hr,
    PairTerm.mk.injEq]
  constructor
  · rw [one_div, mul_inv]
    ring
  · rw [one_div, mul_inv, div_eq_mul_inv, div_eq_mul_inv]
    push_cast
    ring

end LennardJones

section Morse
variable {pot : MorsePot ℝ}

theorem exp_real (x : ℝ) : Elementary.exp x = Real.exp x := rfl

theorem MorsePot.consistent (hw : 0 < pot.switch_width) (hle : pot.switch_width ≤ pot.cuttOffR)
    (hsw : pot.switch = ⟨pot.cuttOffR - pot.switch_width, 1 / pot.switch_width⟩) :
    Consistent pot.kernel pot.cuttOffR := by
  have hd := (TwiceOn.const (s := Ioi 0) 1).add ((exp_twiceOn (-pot.a) pot.re (Ioi 0)).const_mul (-1))
  have hV := ((hd.mul hd).const_mul pot.De).add (TwiceOn.const (-pot.De))
  refine switched_consistent hV hw hle hsw ?_
  intro r hr
  simp only [MorsePot.kernel, if_pos hw.ne', MorsePot.switchedTerm, sqrt_sq_of_pos hr, exp_real,
    PairTerm.mk.injEq]
  constructor
  · ring
  · ring

end Morse

section Repulsion
open ZBL

/-- The source's derivatives of the screened Coulomb energy are its derivatives. -/
theorem e_zbl_twiceOn (p : ZblPairCoeffs ℝ) : TwiceOn (e_zbl p) (dzbldr p) (d2zbldr2 p) (Ioi 0) := by
  have hexp := fun d => exp_twiceOn (-d) 0 (Ioi 0)
  have hsum := ((((hexp p.d1).const_mul kC4).add ((hexp p.d2).const_mul kC3)).add
    ((hexp p.d3).const_mul kC2)).add ((hexp p.d4).const_mul kC1)
  have h := (hsum.mul (inv_pow_twiceOn 1)).const_mul p.zze
  refine h.congr ?_ ?_ ?_ isOpen_Ioi
  · intro r _
    simp only [e_zbl, exp_real, sub_zero, one_div]
    ring
  · intro r _
    simp only [dzbldr, exp_real, sub_zero, one_div]
    push_cast
    ring
  · intro r _
    simp only [d2zbldr2, exp_real, sub_zero, one_div]
    push_cast
    ring

/-- The polynomial's coefficients solve its end conditions. -/
theorem pairCoeffs_end {pot : ZBLPot ℝ} (hcut : pot.cut_inner < pot.cut_global) (zi zj : ℝ) :
    let p := pot.pairCoeffs zi zj
    let tc := pot.cut_global - pot.cut_inner
    e_zbl p pot.cut_global + p.sw5 + p.sw3 * tc ^ 3 + p.sw4 * tc ^ 4 = 0 ∧
    dzbldr p pot.cut_global + p.sw3 * (3 * tc ^ 2) + p.sw4 * (4 * tc ^ 3) = 0 ∧
    d2zbldr2 p pot.cut_global + p.sw3 * (6 * tc) + p.sw4 * (12 * tc ^ 2) = 0 := by
  intro p tc
  have htc : tc ≠ 0 := (sub_pos.mpr hcut).ne'
  let fc := e_zbl p pot.cut_global
  let fcp := dzbldr p pot.cut_global
  let fcpp := d2zbldr2 p pot.cut_global
  have hsw3 : p.sw3 = (-3 * fcp + tc * fcpp) / (tc * tc) / 3 := rfl
  have hsw4 : p.sw4 = (2 * fcp - tc * fcpp) / (tc * tc * tc) / 4 := rfl
  have hsw5 : p.sw5 = -fc + tc / 2 * fcp - tc * tc / 12 * fcpp := rfl
  rw [hsw3, hsw4, hsw5]
  refine ⟨?_, ?_, ?_⟩
  · change fc + _ + _ + _ = 0
    field_simp
    ring
  · change fcp + _ + _ = 0
    field_simp
    ring
  · change fcpp + _ + _ = 0
    field_simp
    ring

theorem pairCoeffs_slopes (pot : ZBLPot ℝ) (zi zj : ℝ) :
    (pot.pairCoeffs zi zj).sw1 = 3 * (pot.pairCoeffs zi zj).sw3 ∧
      (pot.pairCoeffs zi zj).sw2 = 4 * (pot.pairCoeffs zi zj).sw4 := by
  simp only [ZBLPot.pairCoeffs]
  constructor
  · ring
  · ring

/-- The kernel in terms of a ramp that starts at the inner cutoff. -/
theorem pairTerm_eq {pot : ZBLPot ℝ} (hinner : 0 < pot.cut_inner)
    (hsq : pot.cut_inner_sq = pot.cut_inner * pot.cut_inner) (zi zj : ℝ) {r : ℝ} (hr : 0 < r) :
    let p := pot.pairCoeffs zi zj
    let t := ramp pot.cut_inner 1 r
    pot.pairTerm p (r * r) = ⟨e_zbl p r + p.sw5 + p.sw3 * t ^ 3 + p.sw4 * t ^ 4,
      -(dzbldr p r + p.sw3 * (3 * t ^ 2) + p.sw4 * (4 * t ^ 3)) / r⟩ := by
  intro p t
  obtain ⟨hsw1, hsw2⟩ := pairCoeffs_slopes pot zi zj
  have hline : (r - pot.cut_inner) * 1 = r - pot.cut_inner := mul_one _
  simp only [ZBLPot.pairTerm, sqrt_sq_of_pos hr]
  split
  · next hout =>
    rw [hsq] at hout
    have hlt : pot.cut_inner < r := lt_of_mul_self_lt_mul_self₀ hr.le hout
    have ht : t = r - pot.cut_inner := by
      rw [← hline]
      exact max_eq_left (hline.symm ▸ (sub_pos.mpr hlt).le)
    rw [PairTerm.mk.injEq, ht, hsw1, hsw2]
    constructor
    · ring
    · ring
  · next hin =>
    rw [hsq, gt_iff_lt, not_lt] at hin
    have hle : r ≤ pot.cut_inner := (mul_self_le_mul_self_iff hr.le hinner.le).mpr hin
    have ht : t = 0 := max_eq_right (hline.symm ▸ sub_nonpos.mpr hle)
    rw [PairTerm.mk.injEq, ht]
    constructor
    · ring
    · ring

/-- The switching polynomial joins the screened energy at the inner cutoff and ends it at the outer. -/
theorem ZBLPot.consistent {pot : ZBLPot ℝ} (hinner : 0 < pot.cut_inner)
    (hcut : pot.cut_inner < pot.cut_global)
    (hsq : pot.cut_inner_sq = pot.cut_inner * pot.cut_inner) (zi zj : ℝ) :
    Consistent (pot.pairTerm (pot.pairCoeffs zi zj)) pot.cut_global := by
  obtain ⟨h0, h1, h2⟩ := pairCoeffs_end hcut zi zj
  have hterm := fun r => pairTerm_eq hinner hsq zi zj (r := r)
  generalize pot.pairCoeffs zi zj = p at h0 h1 h2 hterm ⊢
  have hpow := fun n => ramp_pow_twiceOn n pot.cut_inner 1 (Ioi 0)
  have h := (((e_zbl_twiceOn p).add (TwiceOn.const p.sw5)).add ((hpow 0).const_mul p.sw3)).add
    ((hpow 1).const_mul p.sw4)
  have hramp : ramp pot.cut_inner 1 pot.cut_global = pot.cut_global - pot.cut_inner := by
    rw [ramp, mul_one]
    exact max_eq_left (sub_pos.mpr hcut).le
  refine consistent_of_twiceOn (hinner.trans hcut) h ?_ ?_ ?_ ?_
  · intro r hr
    rw [hterm r hr.1, PairTerm.mk.injEq]
    refine ⟨rfl, ?_⟩
    push_cast
    ring
  · rw [hramp]
    exact h0
  · rw [hramp]
    refine Eq.trans ?_ h1
    push_cast
    ring
  · rw [hramp]
    refine Eq.trans ?_ h2
    push_cast
    ring

end Repulsion

/-- Switched Lennard-Jones, cluster and Morse kernels, and the repulsion between any two atoms of any
call: the force scale is `-E'(r) / r`, and `E`, `E'` and `E''` end at the cutoff. -/
theorem pairKernels_consistent :
    (∀ c pot, LJPot.make c = .ok pot → c.switch_width ≠ 0 → Consistent pot.kernel c.cutoff) ∧
    (∀ c pot, LJClusterPot.make c = .ok pot → c.switch_width ≠ 0 → Consistent pot.kernel c.cutoff) ∧
    (∀ c pot, MorsePot.make c = .ok pot → c.switch_width ≠ 0 → Consistent pot.kernel c.cutoff) ∧
    ∀ c pot, ZBLPot.make c = .ok pot → ∀ m_tables (atomicNrs : List ℤ) (i j : ℕ),
      i < atomicNrs.length → j < atomicNrs.length →
      let tables := (pot.tablesFor m_tables atomicNrs).1
      Consistent (pot.kernel tables (ZBLPot.typeIdx tables atomicNrs) i j) c.cut_global := by
  refine ⟨?_, ?_, ?_, ?_⟩
  · intro c pot h hne
    obtain ⟨hw, hle, rfl⟩ := (withSwitch_eq_ok_iff hne).mp h
    exact LJPot.consistent hw hle rfl
  · intro c pot h hne
    obtain ⟨hw, hle, rfl⟩ := (withSwitch_eq_ok_iff hne).mp h
    exact LJPot.consistent hw hle rfl
  · intro c pot h hne
    obtain ⟨hw, hle, rfl⟩ := (withSwitch_eq_ok_iff hne).mp h
    exact MorsePot.consistent hw hle rfl
  · intro c pot h m_tables atomicNrs i j hi hj tables
    obtain ⟨hinner, hcut, hsq, hcutoff⟩ := ZBLPot.make_eq_ok h
    have hkernel : pot.kernel tables (ZBLPot.typeIdx tables atomicNrs) i j =
        pot.pairTerm (pot.pairCoeffs (atomicNrs[i] : ℝ) (atomicNrs[j] : ℝ)) := by
      funext r2
      exact pot.kernel_eq m_tables hi hj r2
    rw [hkernel, ← hcutoff]
    exact ZBLPot.consistent hinner hcut hsq _ _

/-- The default cutoffs with a switch over the last angstrom; carbon and oxygen. -/
theorem defaults_consistent :
    (∃ pot, LJPot.make (⟨1, 15, 1, 1⟩ : LJConfig ℝ) = .ok pot ∧ Consistent pot.kernel 15) ∧
    (∃ pot, LJClusterPot.make (⟨1, 15, 1, 1⟩ : LJClusterConfig ℝ) = .ok pot ∧
      Consistent pot.kernel 15) ∧
    (∃ pot, MorsePot.make (⟨0.7102, 1.6047, 2.8970, 9.5, 1⟩ : MorseConfig ℝ) = .ok pot ∧
      Consistent pot.kernel 9.5) ∧
    ∃ pot, ZBLPot.make (⟨2, 2.5⟩ : ZBLConfig ℝ) = .ok pot ∧
      let tables := (pot.tablesFor none [6, 8]).1
      Consistent (pot.kernel tables (ZBLPot.typeIdx tables [6, 8]) 0 1) 2.5 := by
  obtain ⟨hlj, hcluster, hmorse, hzbl⟩ := pairKernels_consistent
  have hone : (1 : ℝ) ≠ 0 := one_ne_zero
  refine ⟨?_, ?_, ?_, ?_⟩
  · obtain ⟨pot, hpot⟩ : ∃ pot, LJPot.make (⟨1, 15, 1, 1⟩ : LJConfig ℝ) = .ok pot :=
      ⟨_, (withSwitch_eq_ok_iff hone).mpr ⟨one_pos, by norm_num, rfl⟩⟩
    exact ⟨pot, hpot, hlj _ pot hpot hone⟩
  · obtain ⟨pot, hpot⟩ : ∃ pot, LJClusterPot.make (⟨1, 15, 1, 1⟩ : LJClusterConfig ℝ) = .ok pot :=
      ⟨_, (withSwitch_eq_ok_iff hone).mpr ⟨one_pos, by norm_num, rfl⟩⟩
    exact ⟨pot, hpot, hcluster _ pot hpot hone⟩
  · obtain ⟨pot, hpot⟩ : ∃ pot,
        MorsePot.make (⟨0.7102, 1.6047, 2.8970, 9.5, 1⟩ : MorseConfig ℝ) = .ok pot :=
      ⟨_, (withSwitch_eq_ok_iff hone).mpr ⟨one_pos, by norm_num, rfl⟩⟩
    exact ⟨pot, hpot, hmorse _ pot hpot hone⟩
  · have hpot : ZBLPot.make (⟨2, 2.5⟩ : ZBLConfig ℝ) = .ok ⟨2, 2.5, 2 * 2⟩ := if_neg (by norm_num)
    exact ⟨_, hpot, hzbl _ _ hpot none [6, 8] 0 1 (by decide) (by decide)⟩

end Rgpot
