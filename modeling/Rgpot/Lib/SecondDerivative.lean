import Rgpot.Lib.Numerals

/-! Functions with their first and second derivatives, powers of ramps, and functions that end smoothly
at a cutoff. -/
namespace SecondDerivative
open Set Filter Topology

/-- `f'` and `f''` are the derivatives of `f` on `s`, the second one continuous. -/
structure TwiceOn (f f' f'' : ℝ → ℝ) (s : Set ℝ) : Prop where
  first : ∀ x ∈ s, HasDerivAt f (f' x) x
  second : ∀ x ∈ s, HasDerivAt f' (f'' x) x
  continuousOn : ContinuousOn f'' s

namespace TwiceOn
variable {f f' f'' g g' g'' : ℝ → ℝ} {s : Set ℝ}

theorem continuousOn_first (h : TwiceOn f f' f'' s) : ContinuousOn f s :=
  fun x hx => (h.first x hx).continuousAt.continuousWithinAt

theorem continuousOn_second (h : TwiceOn f f' f'' s) : ContinuousOn f' s :=
  fun x hx => (h.second x hx).continuousAt.continuousWithinAt

theorem add (hf : TwiceOn f f' f'' s) (hg : TwiceOn g g' g'' s) :
    TwiceOn (fun x => f x + g x) (fun x => f' x + g' x) (fun x => f'' x + g'' x) s where
  first x hx := (hf.first x hx).fun_add (hg.first x hx)
  second x hx := (hf.second x hx).fun_add (hg.second x hx)
  continuousOn := hf.continuousOn.add hg.continuousOn

theorem const_mul (c : ℝ) (hf : TwiceOn f f' f'' s) :
    TwiceOn (fun x => c * f x) (fun x => c * f' x) (fun x => c * f'' x) s where
  first x hx := (hf.first x hx).const_mul c
  second x hx := (hf.second x hx).const_mul c
  continuousOn := continuousOn_const.mul hf.continuousOn

theorem const (c : ℝ) : TwiceOn (fun _ => c) (fun _ => 0) (fun _ => 0) s where
  first x _ := hasDerivAt_const x c
  second x _ := hasDerivAt_const x 0
  continuousOn := continuousOn_const

theorem mul (hf : TwiceOn f f' f'' s) (hg : TwiceOn g g' g'' s) :
    TwiceOn (fun x => f x * g x) (fun x => f' x * g x + f x * g' x)
      (fun x => f'' x * g x + f' x * g' x + (f' x * g' x + f x * g'' x)) s where
  first x hx := (hf.first x hx).fun_mul (hg.first x hx)
  second x hx := ((hf.second x hx).fun_mul (hg.first x hx)).fun_add
    ((hf.first x hx).fun_mul (hg.second x hx))
  continuousOn := by
    have hf0 := hf.continuousOn_first
    have hf1 := hf.continuousOn_second
    have hg0 := hg.continuousOn_first
    have hg1 := hg.continuousOn_second
    exact ((hf.continuousOn.mul hg0).add (hf1.mul hg1)).add
      ((hf1.mul hg1).add (hf0.mul hg.continuousOn))

/-- The same function with its derivatives in another form. -/
theorem congr {F F' F'' : ℝ → ℝ} (h : TwiceOn f f' f'' s) (hF : EqOn F f s) (hF' : EqOn F' f' s)
    (hF'' : EqOn F'' f'' s) (hs : IsOpen s) : TwiceOn F F' F'' s where
  first x hx := by
    rw [hF' hx]
    exact (h.first x hx).congr_of_eventuallyEq (hF.eventuallyEq_of_mem (hs.mem_nhds hx))
  second x hx := by
    rw [hF'' hx]
    exact (h.second x hx).congr_of_eventuallyEq (hF'.eventuallyEq_of_mem (hs.mem_nhds hx))
  continuousOn := h.continuousOn.congr hF''

theorem mono {t : Set ℝ} (h : TwiceOn f f' f'' s) (hts : t ⊆ s) : TwiceOn f f' f'' t where
  first x hx := h.first x (hts hx)
  second x hx := h.second x (hts hx)
  continuousOn := h.continuousOn.mono hts

theorem deriv_eqOn (h : TwiceOn f f' f'' s) : EqOn (deriv f) f' s := fun x hx => (h.first x hx).deriv

theorem deriv_deriv_eqOn (h : TwiceOn f f' f'' s) (hs : IsOpen s) : EqOn (deriv (deriv f)) f'' s := by
  intro x hx
  have hlocal := h.deriv_eqOn.eventuallyEq_of_mem (hs.mem_nhds hx)
  rw [hlocal.deriv_eq, (h.second x hx).deriv]

theorem contDiffOn (h : TwiceOn f f' f'' s) (hs : IsOpen s) : ContDiffOn ℝ 2 f s := by
  have hsecond : ContDiffOn ℝ 1 (deriv f) s := by
    refine (contDiffOn_succ_iff_deriv_of_isOpen (n := 0) hs).mpr ⟨?_, fun hω => (by cases hω), ?_⟩
    · intro x hx
      exact ((h.second x hx).differentiableAt.differentiableWithinAt).congr h.deriv_eqOn
        (h.deriv_eqOn hx)
    · exact contDiffOn_zero.mpr (h.continuousOn.congr (h.deriv_deriv_eqOn hs))
  have hdiff : DifferentiableOn ℝ f s :=
    fun x hx => (h.first x hx).differentiableAt.differentiableWithinAt
  exact (contDiffOn_succ_iff_deriv_of_isOpen (n := 1) hs).mpr ⟨hdiff, fun hω => (by cases hω), hsecond⟩

end TwiceOn

section Ramp

/-- `w (x - a)` above `a`, zero below. -/
def ramp (a w x : ℝ) : ℝ := max ((x - a) * w) 0

theorem hasDerivAt_max_pow (n : ℕ) (x : ℝ) :
    HasDerivAt (fun y => max y 0 ^ (n + 2)) ((n + 2) * max x 0 ^ (n + 1)) x := by
  have hpow : HasDerivAt (fun y : ℝ => y ^ (n + 2)) ((n + 2) * x ^ (n + 1)) x := by
    simpa using hasDerivAt_pow (n + 2) x
  have hzero : HasDerivAt (fun _ : ℝ => (0 : ℝ)) 0 x := hasDerivAt_const x 0
  rcases lt_trichotomy x 0 with hx | rfl | hx
  · rw [max_eq_right hx.le, zero_pow n.succ_ne_zero, mul_zero]
    refine hzero.congr_of_eventuallyEq ?_
    filter_upwards [Iio_mem_nhds hx] with y hy
    rw [max_eq_right (le_of_lt hy), zero_pow (n + 1).succ_ne_zero]
  · -- both sides have slope zero
    rw [max_self, zero_pow n.succ_ne_zero, mul_zero] at *
    have hleft : HasDerivWithinAt (fun y : ℝ => max y 0 ^ (n + 2)) 0 (Iic 0) 0 := by
      refine hzero.hasDerivWithinAt.congr ?_ ?_
      · intro y hy
        rw [max_eq_right hy, zero_pow (n + 1).succ_ne_zero]
      · rw [max_self, zero_pow (n + 1).succ_ne_zero]
    have hright : HasDerivWithinAt (fun y : ℝ => max y 0 ^ (n + 2)) 0 (Ici 0) 0 := by
      refine hpow.hasDerivWithinAt.congr ?_ ?_
      · intro y hy
        rw [max_eq_left hy]
      · rw [max_self]
    have hboth := hleft.union hright
    rwa [Iic_union_Ici, hasDerivWithinAt_univ] at hboth
  · rw [max_eq_left hx.le]
    refine hpow.congr_of_eventuallyEq ?_
    filter_upwards [Ioi_mem_nhds hx] with y hy
    rw [max_eq_left (le_of_lt hy)]

theorem hasDerivAt_ramp_pow (n : ℕ) (a w x : ℝ) :
    HasDerivAt (fun y => ramp a w y ^ (n + 2)) ((n + 2) * w * ramp a w x ^ (n + 1)) x := by
  have hline : HasDerivAt (fun y => (y - a) * w) w x := by
    simpa using ((hasDerivAt_id x).sub_const a).mul_const w
  have hcomp := (hasDerivAt_max_pow n ((x - a) * w)).comp x hline
  have hform : (fun y => ramp a w y ^ (n + 2)) = (fun y => max y 0 ^ (n + 2)) ∘ fun y => (y - a) * w := rfl
  rw [hform]
  refine HasDerivAt.congr_deriv hcomp ?_
  rw [ramp]
  ring

theorem continuous_ramp (a w : ℝ) : Continuous (ramp a w) := by
  unfold ramp
  fun_prop

/-- From the third power on a ramp has a continuous second derivative. -/
theorem ramp_pow_twiceOn (n : ℕ) (a w : ℝ) (s : Set ℝ) :
    TwiceOn (fun x => ramp a w x ^ (n + 3)) (fun x => (n + 3) * w * ramp a w x ^ (n + 2))
      (fun x => (n + 3) * w * ((n + 2) * w * ramp a w x ^ (n + 1))) s where
  first x _ := by
    refine HasDerivAt.congr_deriv (hasDerivAt_ramp_pow (n + 1) a w x) ?_
    push_cast
    ring
  second x _ := (hasDerivAt_ramp_pow n a w x).const_mul _
  continuousOn := by
    have hramp := continuous_ramp a w
    fun_prop

end Ramp

section Elementary

/-- Powers of the inverse. -/
theorem inv_pow_twiceOn (n : ℕ) : TwiceOn (fun x => x⁻¹ ^ n) (fun x => -(n * x⁻¹ ^ (n + 1)))
    (fun x => n * (n + 1) * x⁻¹ ^ (n + 2)) (Ioi 0) := by
  have hpow : ∀ n : ℕ, ∀ x ∈ Ioi (0 : ℝ), HasDerivAt (fun x : ℝ => x⁻¹ ^ n) (-(n * x⁻¹ ^ (n + 1))) x := by
    intro n x hx
    have hne : x ≠ 0 := ne_of_gt hx
    refine HasDerivAt.congr_deriv ((hasDerivAt_inv hne).fun_pow n) ?_
    cases n with
    | zero => simp
    | succ n =>
      rw [Nat.add_sub_cancel, ← inv_pow]
      ring
  constructor
  · exact hpow n
  · intro x hx
    refine HasDerivAt.congr_deriv (((hpow (n + 1) x hx).const_mul (n : ℝ)).fun_neg) ?_
    push_cast
    ring
  · refine ContinuousOn.mul continuousOn_const ?_
    refine ContinuousOn.pow (continuousOn_inv₀.mono ?_) _
    intro x hx
    exact ne_of_gt hx

theorem exp_twiceOn (k a : ℝ) (s : Set ℝ) : TwiceOn (fun x => Real.exp (k * (x - a)))
    (fun x => k * Real.exp (k * (x - a))) (fun x => k * (k * Real.exp (k * (x - a)))) s := by
  have hexp : ∀ x, HasDerivAt (fun x => Real.exp (k * (x - a))) (k * Real.exp (k * (x - a))) x := by
    intro x
    have hline : HasDerivAt (fun x => k * (x - a)) k x := by
      simpa using ((hasDerivAt_id x).sub_const a).const_mul k
    refine HasDerivAt.congr_deriv hline.exp ?_
    ring
  constructor
  · exact fun x _ => hexp x
  · exact fun x _ => (hexp x).const_mul k
  · fun_prop

end Elementary

section Cutoff

/-- A function that is twice continuously differentiable below `c` and goes to zero there with its first
two derivatives. -/
structure EndsSmoothly (f : ℝ → ℝ) (c : ℝ) : Prop where
  contDiffOn : ContDiffOn ℝ 2 f (Ioo 0 c)
  value : Tendsto f (𝓝[<] c) (𝓝 0)
  slope : Tendsto (deriv f) (𝓝[<] c) (𝓝 0)
  curvature : Tendsto (deriv (deriv f)) (𝓝[<] c) (𝓝 0)

variable {f f' f'' F : ℝ → ℝ} {c : ℝ}

theorem eventually_mem_Ioo (hc : 0 < c) : ∀ᶠ x in 𝓝[<] c, x ∈ Ioo 0 c := by
  filter_upwards [self_mem_nhdsWithin, mem_nhdsWithin_of_mem_nhds (Ioi_mem_nhds hc)] with x hlt hpos
  exact ⟨hpos, hlt⟩

/-- What agrees below `c` with a continuous function that is zero at `c` goes to zero. -/
theorem tendsto_zero_of_eqOn {g G : ℝ → ℝ} (hc : 0 < c) (hg : ContinuousOn g (Ioi 0)) (h0 : g c = 0)
    (hG : EqOn G g (Ioo 0 c)) : Tendsto G (𝓝[<] c) (𝓝 0) := by
  have hat : ContinuousAt g c := hg.continuousAt (Ioi_mem_nhds hc)
  have hlimit : Tendsto g (𝓝[<] c) (𝓝 0) := by
    rw [← h0]
    exact hat.tendsto.mono_left nhdsWithin_le_nhds
  refine hlimit.congr' ?_
  filter_upwards [eventually_mem_Ioo hc] with x hx
  exact (hG hx).symm

theorem TwiceOn.endsSmoothly (h : TwiceOn f f' f'' (Ioi 0)) (hc : 0 < c) (hF : EqOn F f (Ioo 0 c))
    (h0 : f c = 0) (h1 : f' c = 0) (h2 : f'' c = 0) : EndsSmoothly F c := by
  have hbelow : TwiceOn F f' f'' (Ioo 0 c) :=
    (h.mono Ioo_subset_Ioi_self).congr hF (fun _ _ => rfl) (fun _ _ => rfl) isOpen_Ioo
  constructor
  · exact hbelow.contDiffOn isOpen_Ioo
  · exact tendsto_zero_of_eqOn hc h.continuousOn_first h0 hF
  · exact tendsto_zero_of_eqOn hc h.continuousOn_second h1 hbelow.deriv_eqOn
  · exact tendsto_zero_of_eqOn hc h.continuousOn h2 (hbelow.deriv_deriv_eqOn isOpen_Ioo)

theorem TwiceOn.deriv_of_eqOn (h : TwiceOn f f' f'' (Ioi 0)) (hF : EqOn F f (Ioo 0 c)) {x : ℝ}
    (hx : x ∈ Ioo 0 c) : deriv F x = f' x := by
  have hbelow := (h.mono Ioo_subset_Ioi_self).congr hF (fun _ _ => rfl) (fun _ _ => rfl) isOpen_Ioo
  exact hbelow.deriv_eqOn hx

end Cutoff

end SecondDerivative
