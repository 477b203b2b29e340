import Mathlib.Analysis.Calculus.Deriv.Comp
import Mathlib.Analysis.Calculus.Deriv.Add
import Mathlib.Analysis.Calculus.Deriv.Mul
import Mathlib.Analysis.Calculus.FDeriv.Pow
import Mathlib.Topology.Algebra.Module.FiniteDimension
import Rgpot.Metatomic.Passes

/-! The orbit average: invariant under its own rotations, with forces that rotate along and are minus
its gradient. -/
namespace Rgpot.Metatomic
open Finset

variable {n : ℕ}

section Algebra
variable {K : Type} [Field K] {a : Rows K n} {pos : Rows K n} {box : Rows K 3}
variable {model : Model K n} {L : List (Matrix (Fin 3) (Fin 3) ℤ)} {R Q : Matrix (Fin 3) (Fin 3) ℤ}

theorem matmul_matmul (a : Rows K n) (b c : Rows K 3) :
    matmul (matmul a b) c = matmul a (matmul b c) :=
  Matrix.mul_assoc (Matrix.of a) (Matrix.of b) (Matrix.of c)

theorem matmul_identity (a : Rows K n) : matmul a identity = a := by
  funext i j
  simp [matmul, identity]

theorem transpose_matmul (a b : Rows K 3) :
    transpose (matmul a b) = matmul (transpose b) (transpose a) := by
  funext i j
  simp only [transpose, matmul, mul_comm]

theorem toRows_mul (R Q : Matrix (Fin 3) (Fin 3) ℤ) :
    (toRows (R * Q) : Rows K 3) = matmul (toRows R) (toRows Q) := by
  funext i j
  simp [toRows, matmul, Matrix.mul_apply]

theorem matmul_transpose_self (hQ : Q * Q.transpose = 1) :
    matmul (toRows Q : Rows K 3) (transpose (toRows Q)) = identity := by
  have hone : (toRows (Q * Q.transpose) : Rows K 3) = identity := by
    rw [hQ]
    funext i j
    simp [toRows, identity, Matrix.one_apply]
  rw [← hone, toRows_mul]
  rfl

/-- Products of rows are linear in the left factor. -/
theorem matmul_list_sum {α : Type} (L : List α) (F : α → Rows K n) (b : Rows K 3) (i : Fin n)
    (j : Fin 3) : (L.map fun r => matmul (F r) b i j).sum =
      matmul (fun i k => (L.map fun r => F r i k).sum) b i j := by
  induction L with
  | nil => simp [matmul]
  | cons r L ih =>
    simp only [List.map_cons, List.sum_cons, ih]
    simp only [matmul, add_mul, sum_add_distrib]

theorem matmul_mul_const (a : Rows K n) (b : Rows K 3) (r : K) (i : Fin n) (j : Fin 3) :
    matmul (fun i k => a i k * r) b i j = matmul a b i j * r := by
  simp only [matmul, sum_mul]
  exact sum_congr rfl fun k _ => by ring

theorem about_add (R : Rows K 3) (d e : Rows K n) : about R (d + e) = about R d + about R e := by
  have hcentroid : ∀ k, centroid (d + e) k = centroid d k + centroid e k := by
    intro k
    simp only [centroid, Pi.add_apply, sum_add_distrib, add_div]
  funext i k
  have hterm : ∀ l, (d i l + e i l - (centroid d l + centroid e l)) * transpose R l k =
      (d i l - centroid d l) * transpose R l k + (e i l - centroid e l) * transpose R l k :=
    fun l => by ring
  simp only [about, matmul, Pi.add_apply, hcentroid, hterm, sum_add_distrib]
  ring

theorem about_smul (R : Rows K 3) (r : K) (d : Rows K n) : about R (r • d) = r • about R d := by
  have hcentroid : ∀ k, centroid (r • d) k = r * centroid d k := by
    intro k
    simp only [centroid, Pi.smul_apply, smul_eq_mul, ← mul_sum, mul_div_assoc]
  funext i k
  simp only [about, matmul, Pi.smul_apply, smul_eq_mul, hcentroid, mul_add, mul_sum, ← mul_sub,
    mul_assoc]

variable [CharZero K]

/-- The deviations from the centroid cancel. -/
theorem sum_sub_centroid (hn : n ≠ 0) (pos : Rows K n) (k : Fin 3) :
    ∑ i, (pos i k - centroid pos k) = 0 := by
  have hcast : (n : K) ≠ 0 := Nat.cast_ne_zero.mpr hn
  simp only [sum_sub_distrib, sum_const, card_univ, Fintype.card_fin, nsmul_eq_mul, centroid]
  rw [mul_div_cancel₀ _ hcast, sub_self]

/-- A rotation about the centroid keeps it. -/
theorem centroid_about (hn : n ≠ 0) (R : Rows K 3) (pos : Rows K n) :
    centroid (about R pos) = centroid pos := by
  have hcast : (n : K) ≠ 0 := Nat.cast_ne_zero.mpr hn
  funext k
  have hsum : ∑ i, matmul (fun j l => pos j l - centroid pos l) (transpose R) i k = 0 := by
    simp only [matmul]
    rw [sum_comm]
    refine sum_eq_zero fun l _ => ?_
    rw [← sum_mul, sum_sub_centroid hn, zero_mul]
  rw [centroid]
  simp only [about, sum_add_distrib, hsum, sum_const, card_univ, Fintype.card_fin, nsmul_eq_mul]
  rw [zero_add, mul_div_cancel_left₀ _ hcast]

theorem about_about (hn : n ≠ 0) (R Q : Rows K 3) (pos : Rows K n) :
    about R (about Q pos) = about (matmul R Q) pos := by
  funext i k
  rw [about, centroid_about hn, about, transpose_matmul, ← matmul_matmul]
  congr 1
  have hrows : (fun j l => about Q pos j l - centroid pos l) =
      matmul (fun j l => pos j l - centroid pos l) (transpose Q) := by
    funext j l
    rw [about, add_sub_cancel_right]
  rw [hrows]

theorem orientedEnergy_about (hn : n ≠ 0) :
    orientedEnergy model (about (toRows Q) pos) (matmul box (transpose (toRows Q))) R =
      orientedEnergy model pos box (R * Q) := by
  rw [orientedEnergy, orientedEnergy, about_about hn, matmul_matmul, ← transpose_matmul, toRows_mul]

/-- The forces of an orientation of the rotated system, in the frame of the system. -/
theorem orientedForces_about (hn : n ≠ 0) (hQ : Q * Q.transpose = 1) :
    orientedForces model (about (toRows Q) pos) (matmul box (transpose (toRows Q))) R =
      matmul (orientedForces model pos box (R * Q)) (transpose (toRows Q)) := by
  have hback : matmul (matmul (toRows R) (toRows Q)) (transpose (toRows Q)) =
      (toRows R : Rows K 3) := by
    rw [matmul_matmul, matmul_transpose_self hQ, matmul_identity]
  rw [orientedForces, orientedForces, about_about hn, matmul_matmul box, ← transpose_matmul,
    toRows_mul, matmul_matmul, hback]

/-- The average energy does not see a rotation of the orbit. -/
theorem averaged_energy_about (hn : n ≠ 0) (hL : IsGroupList L) (hQ : Q ∈ L) :
    (L.map (orientedEnergy model (about (toRows Q) pos)
      (matmul box (transpose (toRows Q))))).sum = (L.map (orientedEnergy model pos box)).sum := by
  rw [← hL.sum_mul_right hQ (orientedEnergy model pos box)]
  exact congrArg List.sum (List.map_congr_left fun R _ => orientedEnergy_about hn)

/-- The average forces rotate along. -/
theorem averaged_forces_about (hn : n ≠ 0) (hL : IsGroupList L) (hQ : Q ∈ L)
    (horth : Q * Q.transpose = 1) (i : Fin n) (k : Fin 3) :
    (L.map fun R => orientedForces model (about (toRows Q) pos)
      (matmul box (transpose (toRows Q))) R i k).sum =
      matmul (fun i k => (L.map fun R => orientedForces model pos box R i k).sum)
        (transpose (toRows Q)) i k := by
  rw [← matmul_list_sum,
    ← hL.sum_mul_right hQ (fun R => matmul (orientedForces model pos box R) _ i k)]
  refine congrArg List.sum (List.map_congr_left fun R _ => ?_)
  rw [orientedForces_about hn horth]

variable {random_so3 : ℕ → Rows K 3} {c : MetatomicConfig}

theorem forceImpl_about (hn : n ≠ 0) (hgroup : 12 ≤ c.n_symmetry_rotations)
    (hprobe : c.so3_probe_scatter = false) (hQ : Q ∈ rotation_group c.n_symmetry_rotations) :
    forceImpl random_so3 c model (about (toRows Q) pos) (matmul box (transpose (toRows Q))) =
      ⟨(forceImpl random_so3 c model pos box).energy,
        matmul (forceImpl random_so3 c model pos box).forces (transpose (toRows Q))⟩ := by
  have hL := rotation_group_isGroupList c.n_symmetry_rotations
  rw [forceImpl_of_group _ _ _ hgroup hprobe, forceImpl_of_group _ _ _ hgroup hprobe,
    averaged_energy_about hn hL hQ]
  congr 1
  funext i k
  rw [averaged_forces_about hn hL hQ (mul_transpose_of_mem hQ), matmul_mul_const]

end Algebra

section Gradient
variable {model : Model ℝ n} {pos g : Rows ℝ n} {box : Rows ℝ 3}

/-- The linear form of a gradient. -/
noncomputable def pairing (g : Rows ℝ n) : Rows ℝ n →L[ℝ] ℝ :=
  LinearMap.toContinuousLinearMap
    { toFun := fun d => ∑ i, ∑ k, g i k * d i k
      map_add' := fun d e => by
        simp only [Pi.add_apply, mul_add, sum_add_distrib]
      map_smul' := fun r d => by
        simp only [Pi.smul_apply, smul_eq_mul, RingHom.id_apply, mul_sum]
        exact sum_congr rfl fun i _ => sum_congr rfl fun k _ => by ring }

@[simp] theorem pairing_apply (g d : Rows ℝ n) : pairing g d = ∑ i, ∑ k, g i k * d i k := rfl

/-- The rotation about the centroid is linear in the positions. -/
noncomputable def aboutLinear (n : ℕ) (R : Rows ℝ 3) : Rows ℝ n →L[ℝ] Rows ℝ n :=
  LinearMap.toContinuousLinearMap
    { toFun := about R
      map_add' := about_add R
      map_smul' := about_smul R }

@[simp] theorem aboutLinear_apply (R : Rows ℝ 3) (d : Rows ℝ n) : aboutLinear n R d = about R d := rfl

/-- What is asked of a model: `grad` is the gradient of `energy`, and a common translation of the
positions changes nothing. -/
structure Model.Differentiable (model : Model ℝ n) : Prop where
  hasGradient : ∀ pos box, HasFDerivAt (fun p => model.energy p box) (pairing (model.grad pos box)) pos
  translation : ∀ pos box (t : Fin 3 → ℝ),
    model.energy (fun i k => pos i k + t k) box = model.energy pos box

/-- The gradient of a translation invariant energy sums to zero. -/
theorem Model.Differentiable.sum_grad (h : model.Differentiable) (pos : Rows ℝ n) (box : Rows ℝ 3)
    (k : Fin 3) : ∑ i, model.grad pos box i k = 0 := by
  let v : Rows ℝ n := fun _ l => if l = k then 1 else 0
  have hpath : HasDerivAt (fun t : ℝ => pos + t • v) ((1 : ℝ) • v) 0 :=
    ((hasDerivAt_id 0).smul_const v).const_add pos
  have hgrad := h.hasGradient (pos + (0 : ℝ) • v) box
  have hcomp := hgrad.comp_hasDerivAt 0 hpath
  have hconst : (fun p => model.energy p box) ∘ (fun t : ℝ => pos + t • v) =
      fun _ => model.energy pos box := by
    funext t
    exact h.translation pos box fun l => t * if l = k then 1 else 0
  rw [hconst] at hcomp
  have hzero := hcomp.unique (hasDerivAt_const 0 _)
  simpa [v] using hzero

/-- The derivative of the centroid cancels: a gradient that sums to zero is rotated back. -/
theorem pairing_about (hg : ∀ k, ∑ i, g i k = 0) (R : Rows ℝ 3) (d : Rows ℝ n) :
    pairing g (about R d) = pairing (matmul g R) d := by
  let x : Fin 3 → ℝ := fun k => centroid d k - ∑ l, centroid d l * R k l
  have habout : ∀ i k, about R d i k = (∑ l, d i l * R k l) + x k := by
    intro i k
    simp only [about, matmul, transpose, sub_mul, sum_sub_distrib, x]
    ring
  have hrotated : ∀ i, ∑ k, g i k * ∑ l, d i l * R k l = ∑ l, matmul g R i l * d i l := by
    intro i
    simp only [matmul, mul_sum, sum_mul]
    rw [sum_comm]
    exact sum_congr rfl fun l _ => sum_congr rfl fun k _ => by ring
  have hcentroid : ∑ i, ∑ k, g i k * x k = 0 := by
    rw [sum_comm]
    refine sum_eq_zero fun k _ => ?_
    rw [← sum_mul, hg, zero_mul]
  simp only [pairing_apply, habout, mul_add, sum_add_distrib, hrotated, hcentroid, add_zero]

theorem hasFDerivAt_orientedEnergy (h : model.Differentiable) (pos : Rows ℝ n) (box : Rows ℝ 3)
    (R : Matrix (Fin 3) (Fin 3) ℤ) : HasFDerivAt (fun p => orientedEnergy model p box R)
      (pairing fun i k => -orientedForces model pos box R i k) pos := by
  have habout : HasFDerivAt (about (toRows R)) (aboutLinear n (toRows R)) pos :=
    (aboutLinear n (toRows R)).hasFDerivAt
  have hmodel := h.hasGradient (about (toRows R) pos) (matmul box (transpose (toRows R)))
  refine (hmodel.comp pos habout).congr_fderiv ?_
  refine ContinuousLinearMap.ext fun d => ?_
  rw [ContinuousLinearMap.comp_apply, aboutLinear_apply, pairing_about (h.sum_grad _ _)]
  refine congrArg (fun g => pairing g d) ?_
  funext i k
  simp only [orientedForces, matmul, neg_mul, sum_neg_distrib, neg_neg]

/-- A sum over the orbit is differentiated term by term. -/
theorem hasFDerivAt_list_sum {α : Type} (L : List α) {f : α → Rows ℝ n → ℝ} {F : α → Rows ℝ n}
    (hf : ∀ r, HasFDerivAt (f r) (pairing (F r)) pos) :
    HasFDerivAt (fun p => (L.map fun r => f r p).sum)
      (pairing fun i k => (L.map fun r => F r i k).sum) pos := by
  induction L with
  | nil =>
    refine (hasFDerivAt_const (0 : ℝ) pos).congr_fderiv ?_
    ext d
    simp
  | cons r L ih =>
    simp only [List.map_cons, List.sum_cons]
    refine ((hf r).add ih).congr_fderiv ?_
    refine ContinuousLinearMap.ext fun d => ?_
    simp only [add_apply, pairing_apply, add_mul, sum_add_distrib]

variable {random_so3 : ℕ → Rows ℝ 3} {c : MetatomicConfig}

theorem hasFDerivAt_forceImpl (h : model.Differentiable) (hgroup : 12 ≤ c.n_symmetry_rotations)
    (hprobe : c.so3_probe_scatter = false) (pos : Rows ℝ n) (box : Rows ℝ 3) :
    HasFDerivAt (fun p => (forceImpl random_so3 c model p box).energy)
      (pairing fun i k => -(forceImpl random_so3 c model pos box).forces i k) pos := by
  have henergy : (fun p => (forceImpl random_so3 c model p box).energy) = fun p =>
      ((rotation_group c.n_symmetry_rotations).map fun R => orientedEnergy model p box R).sum *
        (1 / (rotation_group c.n_symmetry_rotations).length) := by
    funext p
    rw [forceImpl_of_group _ _ _ hgroup hprobe]
  have hsum := hasFDerivAt_list_sum (rotation_group c.n_symmetry_rotations)
    (hasFDerivAt_orientedEnergy h pos box)
  rw [henergy]
  refine (hsum.mul_const _).congr_fderiv ?_
  refine ContinuousLinearMap.ext fun d => ?_
  have hneg : ∀ i k, ((rotation_group c.n_symmetry_rotations).map
      fun R => -orientedForces model pos box R i k).sum = -((rotation_group
        c.n_symmetry_rotations).map fun R => orientedForces model pos box R i k).sum := by
    intro i k
    rw [List.sum_neg, List.map_map]
    rfl
  rw [forceImpl_of_group _ _ _ hgroup hprobe]
  simp only [smul_apply, pairing_apply, smul_eq_mul, mul_sum, hneg]
  exact sum_congr rfl fun i _ => sum_congr rfl fun k _ => by ring

/-- A request of at least twelve rotations, without probe scatter: the energy is the average over the
rotations of the group about the centroid and does not see any of them, the forces rotate along, and
they are minus the gradient of the energy returned. -/
theorem rotation_average (random_so3 : ℕ → Rows ℝ 3) (c : MetatomicConfig) (hn : n ≠ 0)
    (h : model.Differentiable) (hgroup : 12 ≤ c.n_symmetry_rotations)
    (hprobe : c.so3_probe_scatter = false) (pos : Rows ℝ n) (box : Rows ℝ 3) :
    (forceImpl random_so3 c model pos box).energy =
      ((rotation_group c.n_symmetry_rotations).map fun R =>
        model.energy (about (toRows R) pos) (matmul box (transpose (toRows R)))).sum /
          (rotation_group c.n_symmetry_rotations).length ∧
    (∀ Q ∈ rotation_group c.n_symmetry_rotations,
      forceImpl random_so3 c model (about (toRows Q) pos) (matmul box (transpose (toRows Q))) =
        ⟨(forceImpl random_so3 c model pos box).energy,
          matmul (forceImpl random_so3 c model pos box).forces (transpose (toRows Q))⟩) ∧
    HasFDerivAt (fun p => (forceImpl random_so3 c model p box).energy)
      (pairing fun i k => -(forceImpl random_so3 c model pos box).forces i k) pos := by
  refine ⟨?_, fun _ hQ => forceImpl_about hn hgroup hprobe hQ, hasFDerivAt_forceImpl h hgroup hprobe pos box⟩
  rw [forceImpl_of_group _ _ _ hgroup hprobe]
  exact mul_one_div _ _

end Gradient

section Instances

/-- Two atoms on a spring along the first axis. -/
noncomputable def spring : Model ℝ 2 where
  energy p _ := (p 1 0 - p 0 0) ^ 2
  grad p _ := ![![-2 * (p 1 0 - p 0 0), 0, 0], ![2 * (p 1 0 - p 0 0), 0, 0]]

theorem spring_differentiable : spring.Differentiable where
  hasGradient p _ := by
    have hstretch : HasFDerivAt (fun q : Rows ℝ 2 => q 1 0 - q 0 0)
        (pairing ![![-1, 0, 0], ![1, 0, 0]]) p := by
      refine (pairing ![![-1, 0, 0], ![1, 0, 0]]).hasFDerivAt.congr_of_eventuallyEq ?_
      refine Filter.Eventually.of_forall fun q => ?_
      simp [Fin.sum_univ_three]
      ring
    refine (hstretch.pow 2).congr_fderiv (ContinuousLinearMap.ext fun d => ?_)
    simp [spring, Fin.sum_univ_three]
    ring
  translation p _ t := by
    simp [spring]

def tetrahedral : MetatomicConfig where
  n_symmetry_rotations := 12

/-- A spring of length one along the first axis: a third of the rotations leave it along that axis, and
the one that permutes the axes takes the forces with it. -/
theorem rotation_average_spring :
    let out := forceImpl (fun _ => identity) tetrahedral spring ![![0, 0, 0], ![1, 0, 0]] identity
    let Q := signedMatrix 1 0
    out.energy = 1 / 3 ∧
      forceImpl (fun _ => identity) tetrahedral spring (about (toRows Q) ![![0, 0, 0], ![1, 0, 0]])
        (matmul identity (transpose (toRows Q))) = ⟨1 / 3, matmul out.forces (transpose (toRows Q))⟩ ∧
      HasFDerivAt (fun p => (forceImpl (fun _ => identity) tetrahedral spring p identity).energy)
        (pairing fun i k => -out.forces i k) ![![0, 0, 0], ![1, 0, 0]] := by
  intro out Q
  have hmem : Q ∈ rotation_group tetrahedral.n_symmetry_rotations := by decide
  obtain ⟨haverage, hrotated, hgradient⟩ := rotation_average (fun _ => identity) tetrahedral two_ne_zero
    spring_differentiable (by decide) rfl ![![0, 0, 0], ![1, 0, 0]] identity
  have hstretch : ∀ R, spring.energy (about (toRows R) ![![0, 0, 0], ![1, 0, 0]])
      (matmul identity (transpose (toRows R))) = ((R 0 0 ^ 2 : ℤ) : ℝ) := by
    intro R
    simp [spring, about, matmul, transpose, toRows, centroid, Fin.sum_univ_three]
    ring
  have hthird : out.energy = 1 / 3 := by
    have hsum : ((rotation_group tetrahedral.n_symmetry_rotations).map fun R => R 0 0 ^ 2).sum = 4 := by decide
    have hlength : (rotation_group tetrahedral.n_symmetry_rotations).length = 12 := by decide
    refine haverage.trans ?_
    simp only [hstretch]
    have hcast := Int.cast_list_sum (R := ℝ)
      ((rotation_group tetrahedral.n_symmetry_rotations).map fun R => R 0 0 ^ 2)
    rw [List.map_map] at hcast
    rw [← Function.comp_def, ← hcast, hsum, hlength]
    norm_num
  refine ⟨hthird, ?_, hgradient⟩
  rw [hrotated Q hmem, ← hthird]

end Instances

end Rgpot.Metatomic
