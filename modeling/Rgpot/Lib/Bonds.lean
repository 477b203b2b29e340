import Rgpot.Lib.ImageGap

/-! Bonds between atoms and periodic images: vectors, lengths and cosines along them as functions of the
positions, and the forces of an energy summed over bonds, gathered at each atom. -/
namespace Bonds
open Filter Topology Lattice
open scoped Matrix

/-- From `src` to the image of `dst` that is `shift` cells away. -/
@[ext] structure Bond (A ι : Type) where
  src : A
  dst : A
  shift : ι → ℤ

noncomputable instance (A ι : Type) : DecidableEq (Bond A ι) := Classical.decEq _

/-- The coordinates of all atoms. -/
abbrev Places (A ι : Type) : Type := ι → A → ℝ

variable {A ι : Type}

/-- The same bond seen from its other end. -/
def Bond.rev (b : Bond A ι) : Bond A ι := ⟨b.dst, b.src, -b.shift⟩

@[simp] theorem Bond.rev_src (b : Bond A ι) : b.rev.src = b.dst := rfl
@[simp] theorem Bond.rev_dst (b : Bond A ι) : b.rev.dst = b.src := rfl
@[simp] theorem Bond.rev_rev (b : Bond A ι) : b.rev.rev = b := Bond.ext rfl rfl (neg_neg _)

variable [Fintype ι]

section Vectors
variable (H : Matrix ι ι ℝ) (R : Places A ι) (b c : Bond A ι)

/-- From one end of a bond to the other; the rows of `H` are the cell vectors. -/
def vector : ι → ℝ := fun d => R d b.dst - R d b.src + ((fun i => (b.shift i : ℝ)) ᵥ* H) d

noncomputable def length : ℝ := len (vector H R b)

noncomputable def unit : ι → ℝ := (length H R b)⁻¹ • vector H R b

/-- The cosine of the angle between two bonds. -/
noncomputable def cosine : ℝ := unit H R b ⬝ᵥ unit H R c

theorem vector_rev : vector H R b.rev = -vector H R b := by
  have hshift : (fun i => ((b.rev.shift i : ℤ) : ℝ)) = -fun i => (b.shift i : ℝ) := by
    funext i
    exact Int.cast_neg _
  funext d
  simp only [vector, hshift, Matrix.neg_vecMul, Pi.neg_apply, Bond.rev_src, Bond.rev_dst]
  ring

@[simp] theorem length_rev : length H R b.rev = length H R b := by
  rw [length, length, vector_rev, len, len, WithLp.toLp_neg, norm_neg]

@[simp] theorem unit_rev : unit H R b.rev = -unit H R b := by
  rw [unit, unit, length_rev, vector_rev, smul_neg]

theorem cosine_comm : cosine H R b c = cosine H R c b := dotProduct_comm _ _

theorem length_nonneg : 0 ≤ length H R b := len_nonneg _

theorem vector_eq_image : vector H R b = image H (fun d => R d b.dst - R d b.src) (-b.shift) := by
  have hshift : (fun i => (((-b.shift) i : ℤ) : ℝ)) = -fun i => (b.shift i : ℝ) := by
    funext i
    exact Int.cast_neg _
  rw [image, hshift, Matrix.neg_vecMul, sub_neg_eq_add]
  rfl

end Vectors

section Derivatives
variable [Fintype A]

/-- One coordinate of one atom. -/
def coord (d : ι) (a : A) : Places A ι →L[ℝ] ℝ :=
  (ContinuousLinearMap.proj a).comp (ContinuousLinearMap.proj (R := ℝ) (φ := fun _ : ι => A → ℝ) d)

omit [Fintype ι] [Fintype A] in
@[simp] theorem coord_apply (d : ι) (a : A) (u : Places A ι) : coord d a u = u d a := rfl

/-- What a change of the positions adds along `g` at the bond. -/
noncomputable def pull (b : Bond A ι) : (ι → ℝ) →ₗ[ℝ] Places A ι →L[ℝ] ℝ where
  toFun g := ∑ d, g d • (coord d b.dst - coord d b.src)
  map_add' g h := by
    simp only [Pi.add_apply, add_smul, Finset.sum_add_distrib]
  map_smul' k g := by
    simp only [Pi.smul_apply, smul_eq_mul, mul_smul, Finset.smul_sum, RingHom.id_apply]

omit [Fintype A] in
theorem pull_apply (b : Bond A ι) (g : ι → ℝ) (u : Places A ι) :
    pull b g u = ∑ d, g d * (u d b.dst - u d b.src) := by
  simp [pull]

variable (H : Matrix ι ι ℝ) {R : Places A ι} {b c : Bond A ι}

theorem hasFDerivAt_dot :
    HasFDerivAt (fun R => vector H R b ⬝ᵥ vector H R c)
      (pull b (vector H R c) + pull c (vector H R b)) R := by
  have hentry : ∀ (b : Bond A ι) (d : ι), HasFDerivAt (fun R => vector H R b d)
      (coord d b.dst - coord d b.src) R := by
    intro b d
    exact ((coord d b.dst - coord d b.src).hasFDerivAt).add_const _
  have hsum := HasFDerivAt.fun_sum (u := Finset.univ) fun d _ => (hentry b d).fun_mul (hentry c d)
  refine hsum.congr_fderiv ?_
  ext u
  simp only [pull, LinearMap.coe_mk, AddHom.coe_mk, sum_apply,
    add_apply, smul_apply, ← Finset.sum_add_distrib]
  refine Finset.sum_congr rfl fun d _ => add_comm _ _

theorem hasFDerivAt_length (hb : 0 < length H R b) :
    HasFDerivAt (fun R => length H R b) (pull b (unit H R b)) R := by
  have hdot : 0 < vector H R b ⬝ᵥ vector H R b := by
    have := mul_pos hb hb
    rwa [length, len_mul_self] at this
  have hform : (fun R => length H R b) = fun R => Real.sqrt (vector H R b ⬝ᵥ vector H R b) := by
    funext R
    have hsq : vector H R b ⬝ᵥ vector H R b = length H R b * length H R b := (len_mul_self _).symm
    rw [hsq, Real.sqrt_mul_self (length_nonneg H R b)]
  have hroot : Real.sqrt (vector H R b ⬝ᵥ vector H R b) = length H R b := congrFun hform.symm R
  rw [hform]
  have hd : HasFDerivAt (fun R => vector H R b ⬝ᵥ vector H R b) _ R := hasFDerivAt_dot H
  refine (hd.sqrt hdot.ne').congr_fderiv ?_
  rw [hroot, ← two_smul ℝ (pull b _), smul_smul, unit, map_smul]
  congr 1
  field_simp

theorem hasFDerivAt_radial {φ : ℝ → ℝ} {φ' : ℝ} (hb : 0 < length H R b)
    (hφ : HasDerivAt φ φ' (length H R b)) :
    HasFDerivAt (fun R => φ (length H R b)) (pull b (φ' • unit H R b)) R := by
  rw [map_smul]
  exact hφ.comp_hasFDerivAt R (hasFDerivAt_length H hb)

omit [Fintype A] in
theorem cosine_eq : cosine H R b c =
    (vector H R b ⬝ᵥ vector H R c) * ((length H R b)⁻¹ * (length H R c)⁻¹) := by
  rw [cosine, unit, unit, smul_dotProduct, dotProduct_smul, smul_eq_mul, smul_eq_mul]
  ring

/-- The slope of the cosine at the end of `b`. -/
noncomputable def cosineSlope (H : Matrix ι ι ℝ) (R : Places A ι) (b c : Bond A ι) : ι → ℝ :=
  (length H R b)⁻¹ • (unit H R c - cosine H R b c • unit H R b)

theorem hasFDerivAt_cosine (hb : 0 < length H R b) (hc : 0 < length H R c) :
    HasFDerivAt (fun R => cosine H R b c)
      (pull b (cosineSlope H R b c) + pull c (cosineSlope H R c b)) R := by
  have hinv : ∀ {b : Bond A ι}, 0 < length H R b → HasFDerivAt (fun R => (length H R b)⁻¹)
      (pull b (-((length H R b) ^ 2)⁻¹ • unit H R b)) R := by
    intro b hb
    exact hasFDerivAt_radial H hb (hasDerivAt_inv hb.ne')
  have hform : (fun R => cosine H R b c) = fun R => (vector H R b ⬝ᵥ vector H R c) *
      ((length H R b)⁻¹ * (length H R c)⁻¹) := funext fun R => cosine_eq H
  have hvec : ∀ {b : Bond A ι}, 0 < length H R b → vector H R b = length H R b • unit H R b := by
    intro b hb
    rw [unit, smul_smul, mul_inv_cancel₀ hb.ne', one_smul]
  have hdot : vector H R b ⬝ᵥ vector H R c = length H R b * length H R c * cosine H R b c := by
    rw [cosine_eq]
    field_simp
  rw [hform]
  refine ((hasFDerivAt_dot H).fun_mul ((hinv hb).fun_mul (hinv hc))).congr_fderiv ?_
  rw [hdot, cosineSlope, cosineSlope, cosine_comm H R c b]
  nth_rewrite 1 [hvec hc]
  nth_rewrite 1 [hvec hb]
  simp only [map_smul, map_sub, smul_add, smul_sub, smul_smul]
  ext u
  simp only [add_apply, smul_apply,
    sub_apply, smul_eq_mul]
  field_simp
  ring

end Derivatives

section Forces
variable [Fintype A]

/-- The work of forces along a change of the positions. -/
noncomputable def work (F : A → ι → ℝ) : Places A ι →L[ℝ] ℝ :=
  ∑ a, ∑ d, F a d • coord d a

theorem work_apply (F : A → ι → ℝ) (u : Places A ι) : work F u = ∑ a, ∑ d, F a d * u d a := by
  simp [work]

/-- Forces that are exactly minus the gradient of an energy and leave its centre of mass at rest. -/
structure IsForce (E : Places A ι → ℝ) (F : A → ι → ℝ) (R : Places A ι) : Prop where
  gradient : HasFDerivAt E (-work F) R
  balanced : ∑ a, F a = 0

theorem IsForce.congr {E E' : Places A ι → ℝ} {F : A → ι → ℝ} {R : Places A ι} (h : IsForce E F R)
    (hE : E' =ᶠ[𝓝 R] E) : IsForce E' F R :=
  ⟨h.gradient.congr_of_eventuallyEq hE, h.balanced⟩

theorem IsForce.of_eq {E : Places A ι → ℝ} {F F' : A → ι → ℝ} {R : Places A ι} (h : IsForce E F R)
    (hF : F' = F) : IsForce E F' R := hF ▸ h

variable [DecidableEq A]

/-- The bonds that start at an atom. -/
noncomputable def rowOf (B : Finset (Bond A ι)) (a : A) : Finset (Bond A ι) := B.filter fun b => b.src = a

omit [Fintype ι] [Fintype A] in
@[simp] theorem mem_rowOf {B : Finset (Bond A ι)} {a : A} {b : Bond A ι} :
    b ∈ rowOf B a ↔ b ∈ B ∧ b.src = a := Finset.mem_filter

/-- With a bond its reverse is in the set. -/
def Full (B : Finset (Bond A ι)) : Prop := ∀ b ∈ B, b.rev ∈ B

omit [Fintype ι] in
/-- A sum over the bonds, row by row. -/
theorem sum_rows {M : Type} [AddCommMonoid M] (B : Finset (Bond A ι)) (f : Bond A ι → M) :
    ∑ a, ∑ b ∈ rowOf B a, f b = ∑ b ∈ B, f b := by
  simp only [rowOf, Finset.sum_filter]
  rw [Finset.sum_comm]
  refine Finset.sum_congr rfl fun b _ => ?_
  rw [Finset.sum_ite_eq, if_pos (Finset.mem_univ _)]

omit [Fintype ι] [Fintype A] [DecidableEq A] in
/-- A full set is summed from the other ends as well. -/
theorem sum_rev {M : Type} [AddCommMonoid M] {B : Finset (Bond A ι)} (h : Full B)
    (f : Bond A ι → M) : ∑ b ∈ B, f b.rev = ∑ b ∈ B, f b :=
  Finset.sum_nbij' Bond.rev Bond.rev h h (fun b _ => b.rev_rev) (fun b _ => b.rev_rev)
    fun _ _ => rfl

/-- Each atom gathers what its bonds pull at their ends, from its own row. -/
noncomputable def gathered (B : Finset (Bond A ι)) (G : Bond A ι → ι → ℝ) (a : A) : ι → ℝ :=
  ∑ b ∈ rowOf B a, (G b - G b.rev)

omit [Fintype ι] in
theorem gathered_balanced {B : Finset (Bond A ι)} (h : Full B) (G : Bond A ι → ι → ℝ) :
    ∑ a, gathered B G a = 0 := by
  simp only [gathered]
  rw [sum_rows B fun b => G b - G b.rev, Finset.sum_sub_distrib, sum_rev h G, sub_self]

theorem work_gathered {B : Finset (Bond A ι)} (h : Full B) (G : Bond A ι → ι → ℝ) :
    -work (gathered B G) = ∑ b ∈ B, pull b (G b) := by
  ext u
  have hatoms : work (gathered B G) u = ∑ b ∈ B, ∑ d, (G b d - G b.rev d) * u d b.src := by
    rw [work_apply, ← sum_rows B]
    refine Finset.sum_congr rfl fun a _ => ?_
    rw [Finset.sum_comm]
    refine Finset.sum_congr rfl fun d _ => ?_
    rw [gathered, Finset.sum_apply, Finset.sum_mul]
    refine Finset.sum_congr rfl fun b hb => ?_
    rw [(mem_rowOf.mp hb).2, Pi.sub_apply]
  have hends : ∑ b ∈ B, ∑ d, G b.rev d * u d b.src = ∑ b ∈ B, ∑ d, G b d * u d b.dst :=
    sum_rev h fun b => ∑ d, G b d * u d b.dst
  simp only [sub_mul, Finset.sum_sub_distrib] at hatoms
  rw [neg_apply, hatoms, hends, sum_apply]
  simp only [pull_apply, mul_sub, Finset.sum_sub_distrib]
  ring

omit [Fintype ι] [Fintype A] [DecidableEq A] in
theorem sum_swap {M : Type} [AddCommMonoid M] (S : Finset (Bond A ι)) (f : Bond A ι → Bond A ι → M) :
    ∑ b ∈ S, ∑ c ∈ S.erase b, f c b = ∑ b ∈ S, ∑ c ∈ S.erase b, f b c := by
  refine Finset.sum_comm' fun b c => ?_
  simp only [Finset.mem_erase]
  constructor
  · rintro ⟨hb, hne, hc⟩
    exact ⟨⟨hne.symm, hb⟩, hc⟩
  · rintro ⟨⟨hne, hb⟩, hc⟩
    exact ⟨hb, hne.symm, hc⟩

/-- What each bond pulls at itself and at every other bond of its atom, sorted by bond. -/
theorem sum_legs_pull (B : Finset (Bond A ι)) (P Q : Bond A ι → Bond A ι → ι → ℝ) :
    ∑ b ∈ B, ∑ c ∈ (rowOf B b.src).erase b, (pull b (P b c) + pull c (Q b c)) =
      ∑ b ∈ B, pull b (∑ c ∈ (rowOf B b.src).erase b, (P b c + Q c b)) := by
  rw [← sum_rows B, ← sum_rows B]
  refine Finset.sum_congr rfl fun a _ => ?_
  have hsrc : ∀ b ∈ rowOf B a, rowOf B b.src = rowOf B a := by
    intro b hb
    rw [(mem_rowOf.mp hb).2]
  have hends := sum_swap (rowOf B a) fun b c => pull b (Q c b)
  calc ∑ b ∈ rowOf B a, ∑ c ∈ (rowOf B b.src).erase b, (pull b (P b c) + pull c (Q b c))
      = ∑ b ∈ rowOf B a, ∑ c ∈ (rowOf B a).erase b, pull b (P b c) +
          ∑ b ∈ rowOf B a, ∑ c ∈ (rowOf B a).erase b, pull c (Q b c) := by
        rw [← Finset.sum_add_distrib]
        refine Finset.sum_congr rfl fun b hb => ?_
        rw [hsrc b hb, Finset.sum_add_distrib]
    _ = ∑ b ∈ rowOf B a, pull b (∑ c ∈ (rowOf B b.src).erase b, (P b c + Q c b)) := by
        rw [hends, ← Finset.sum_add_distrib]
        refine Finset.sum_congr rfl fun b hb => ?_
        rw [hsrc b hb, ← Finset.sum_add_distrib, map_sum]
        exact Finset.sum_congr rfl fun c _ => (map_add _ _ _).symm

/-- What all pairs of bonds at a common atom pull, sorted by bond. -/
theorem sum_pairs_pull (B : Finset (Bond A ι)) (D : Bond A ι → Bond A ι → ι → ℝ) :
    ∑ a, ∑ b ∈ rowOf B a, ∑ c ∈ (rowOf B a).erase b,
        (1 / 2 : ℝ) • (pull b (D b c) + pull c (D c b)) =
      ∑ b ∈ B, pull b (∑ c ∈ (rowOf B b.src).erase b, D b c) := by
  have hlegs := sum_legs_pull B (fun b c => (1 / 2 : ℝ) • D b c) fun b c => (1 / 2 : ℝ) • D c b
  have hboth : ∀ b c, (1 / 2 : ℝ) • D b c + (1 / 2 : ℝ) • D b c = D b c := by
    intro b c
    rw [← add_smul]
    norm_num
  simp only [hboth, map_smul, ← smul_add] at hlegs
  rw [← hlegs, ← sum_rows B]
  refine Finset.sum_congr rfl fun a _ => Finset.sum_congr rfl fun b hb => ?_
  rw [(mem_rowOf.mp hb).2]

/-- What a summed energy pulls at its bonds, gathered, is its force. -/
theorem isForce_gathered {B : Finset (Bond A ι)} (h : Full B) {E : Places A ι → ℝ} {R : Places A ι}
    {G : Bond A ι → ι → ℝ} (hE : HasFDerivAt E (∑ b ∈ B, pull b (G b)) R) :
    IsForce E (gathered B G) R :=
  ⟨work_gathered h G ▸ hE, gathered_balanced h G⟩

/-- Pairs and embedded atoms: half of each directed pair, and each atom in the density of its row. -/
noncomputable def embeddedEnergy (H : Matrix ι ι ℝ) (B : Finset (Bond A ι)) (φ ρ : Bond A ι → ℝ → ℝ)
    (F : A → ℝ → ℝ) (R : Places A ι) : ℝ :=
  ∑ b ∈ B, 1 / 2 * φ b (length H R b) + ∑ a, F a (∑ b ∈ rowOf B a, ρ b (length H R b))

/-- The force on an embedded atom needs one slope of the embedding at each end of its bonds. -/
theorem isForce_embedded (H : Matrix ι ι ℝ) {B : Finset (Bond A ι)} (hfull : Full B)
    {φ ρ : Bond A ι → ℝ → ℝ} {F : A → ℝ → ℝ} {φ' ρ' : Bond A ι → ℝ} {F' : A → ℝ} {R : Places A ι}
    (hpos : ∀ b ∈ B, 0 < length H R b) (hφ : ∀ b ∈ B, HasDerivAt (φ b) (φ' b) (length H R b))
    (hρ : ∀ b ∈ B, HasDerivAt (ρ b) (ρ' b) (length H R b))
    (hF : ∀ a, HasDerivAt (F a) (F' a) (∑ b ∈ rowOf B a, ρ b (length H R b))) :
    IsForce (embeddedEnergy H B φ ρ F) (fun a => ∑ b ∈ rowOf B a,
      (1 / 2 * (φ' b + φ' b.rev) + F' a * ρ' b + F' b.dst * ρ' b.rev) • unit H R b) R := by
  have hpairs : HasFDerivAt (fun R => ∑ b ∈ B, 1 / 2 * φ b (length H R b))
      (∑ b ∈ B, (1 / 2 : ℝ) • pull b (φ' b • unit H R b)) R :=
    HasFDerivAt.fun_sum fun b hb => (hasFDerivAt_radial H (hpos b hb) (hφ b hb)).const_mul (1 / 2)
  have hdensity : ∀ a, HasFDerivAt (fun R => ∑ b ∈ rowOf B a, ρ b (length H R b))
      (∑ b ∈ rowOf B a, pull b (ρ' b • unit H R b)) R := by
    intro a
    refine HasFDerivAt.fun_sum fun b hb => ?_
    have hbB := (mem_rowOf.mp hb).1
    exact hasFDerivAt_radial H (hpos b hbB) (hρ b hbB)
  have hembed : HasFDerivAt (fun R => ∑ a, F a (∑ b ∈ rowOf B a, ρ b (length H R b)))
      (∑ a, F' a • ∑ b ∈ rowOf B a, pull b (ρ' b • unit H R b)) R :=
    HasFDerivAt.fun_sum fun a _ => (hF a).comp_hasFDerivAt R (hdensity a)
  have hrows : ∑ a, F' a • ∑ b ∈ rowOf B a, pull b (ρ' b • unit H R b) =
      ∑ b ∈ B, pull b ((F' b.src * ρ' b) • unit H R b) := by
    rw [← sum_rows B]
    refine Finset.sum_congr rfl fun a _ => ?_
    rw [Finset.smul_sum]
    refine Finset.sum_congr rfl fun b hb => ?_
    rw [(mem_rowOf.mp hb).2, mul_smul, map_smul (pull b) (F' a)]
  have hall : HasFDerivAt (embeddedEnergy H B φ ρ F)
      (∑ b ∈ B, pull b ((1 / 2 * φ' b + F' b.src * ρ' b) • unit H R b)) R := by
    refine (hpairs.fun_add hembed).congr_fderiv ?_
    rw [hrows, ← Finset.sum_add_distrib]
    refine Finset.sum_congr rfl fun b _ => ?_
    rw [add_smul, map_add, mul_smul (1 / 2 : ℝ)]
    simp only [map_smul]
  have hgathered : gathered B (fun b => (1 / 2 * φ' b + F' b.src * ρ' b) • unit H R b) = fun a =>
      ∑ b ∈ rowOf B a, (1 / 2 * (φ' b + φ' b.rev) + F' a * ρ' b + F' b.dst * ρ' b.rev) • unit H R b := by
    funext a
    refine Finset.sum_congr rfl fun b hb => ?_
    simp only [(mem_rowOf.mp hb).2, unit_rev, Bond.rev_src]
    module
  exact hgathered ▸ isForce_gathered hfull hall

end Forces

section Within
variable [Fintype A] (H : Matrix ι ι ℝ)

/-- The bonds between different atoms that are shorter than a cutoff. -/
def WithinSet (R : Places A ι) (rcut : ℝ) : Set (Bond A ι) := {b | b.src ≠ b.dst ∧ length H R b < rcut}

open Classical in
/-- These bonds as a finite set. -/
noncomputable def within (R : Places A ι) (rcut : ℝ) : Finset (Bond A ι) :=
  if h : (WithinSet H R rcut).Finite then h.toFinset else ∅

variable {H} [DecidableEq ι]

theorem finite_length_le (hH : H.det ≠ 0) (R : Places A ι) (r : ℝ) :
    {b : Bond A ι | length H R b ≤ r}.Finite := by
  have hpair : ∀ p : A × A, {n : ι → ℤ | length H R ⟨p.1, p.2, n⟩ ≤ r}.Finite := by
    intro p
    have himages := finite_image_le (d := fun d => R d p.2 - R d p.1) hH (max r 0) (le_max_right _ _)
    refine (himages.preimage (neg_injective.injOn (s := _))).subset fun n hn => ?_
    have hle : length H R ⟨p.1, p.2, n⟩ ≤ r := hn
    rw [length, vector_eq_image] at hle
    exact hle.trans (le_max_left _ _)
  have hall := Set.finite_iUnion fun p : A × A =>
    (hpair p).image fun n => (⟨p.1, p.2, n⟩ : Bond A ι)
  refine hall.subset fun b hb => Set.mem_iUnion.mpr ⟨(b.src, b.dst), b.shift, hb, rfl⟩

theorem mem_within (hH : H.det ≠ 0) {R : Places A ι} {rcut : ℝ} {b : Bond A ι} :
    b ∈ within H R rcut ↔ b.src ≠ b.dst ∧ length H R b < rcut := by
  have hfinite : (WithinSet H R rcut).Finite :=
    (finite_length_le hH R rcut).subset fun b hb => le_of_lt hb.2
  rw [within, dif_pos hfinite, Set.Finite.mem_toFinset]
  rfl

theorem full_within (hH : H.det ≠ 0) (R : Places A ι) (rcut : ℝ) : Full (within H R rcut) := by
  intro b hb
  rw [mem_within hH] at hb ⊢
  exact ⟨hb.1.symm, (length_rev H R b).symm ▸ hb.2⟩

omit [Fintype A] [DecidableEq ι] in
theorem continuous_vector (b : Bond A ι) : Continuous fun R => vector H R b := by
  refine continuous_pi fun d => ?_
  unfold vector
  fun_prop

omit [Fintype A] [DecidableEq ι] in
theorem continuous_length (b : Bond A ι) : Continuous fun R => length H R b := by
  have hlen : Continuous (len : (ι → ℝ) → ℝ) := by
    unfold len
    fun_prop
  exact hlen.comp (continuous_vector b)

omit [DecidableEq ι] in
/-- Positions that are close enough move every bond of all images by less than one. -/
theorem eventually_length_lt (R : Places A ι) :
    ∀ᶠ R' in 𝓝 R, ∀ b : Bond A ι, length H R b < length H R' b + 1 := by
  have hpair : ∀ p : A × A, ∀ᶠ R' in 𝓝 R,
      len (fun d => (R d p.2 - R d p.1) - (R' d p.2 - R' d p.1)) < 1 := by
    intro p
    have hcont : Continuous fun R' : Places A ι =>
        len (fun d => (R d p.2 - R d p.1) - (R' d p.2 - R' d p.1)) := by
      unfold len
      fun_prop
    refine hcont.continuousAt.eventually_lt continuousAt_const ?_
    have hstill : (fun d => (R d p.2 - R d p.1) - (R d p.2 - R d p.1)) = 0 := funext fun d => sub_self _
    rw [hstill, len, WithLp.toLp_zero, norm_zero]
    exact one_pos
  filter_upwards [Filter.eventually_all.mpr hpair] with R' h b
  have hsplit : vector H R b =
      vector H R' b + fun d => (R d b.dst - R d b.src) - (R' d b.dst - R' d b.src) := by
    funext d
    simp only [vector, Pi.add_apply]
    ring
  calc length H R b ≤ length H R' b + len _ := by
        rw [length, hsplit]
        exact len_add_le _ _
    _ < length H R' b + 1 := by
        have := h (b.src, b.dst)
        linarith

/-- Where no bond is as long as the cutoff, the bonds within it stay the same near by. -/
theorem eventually_within_eq (hH : H.det ≠ 0) {R : Places A ι} {rcut : ℝ}
    (hoff : ∀ b : Bond A ι, b.src ≠ b.dst → length H R b ≠ rcut) :
    ∀ᶠ R' in 𝓝 R, within H R' rcut = within H R rcut := by
  have hnear : ∀ᶠ R' in 𝓝 R, ∀ b ∈ {b : Bond A ι | length H R b ≤ rcut + 1}, b.src ≠ b.dst →
      (length H R' b < rcut ↔ length H R b < rcut) := by
    refine (Filter.eventually_all_finite (finite_length_le hH R (rcut + 1))).mpr fun b _ => ?_
    have hcont := (continuous_length (H := H) b).continuousAt (x := R)
    by_cases hb : b.src = b.dst
    · exact Filter.Eventually.of_forall fun _ hne => absurd hb hne
    rcases lt_or_gt_of_ne (hoff b hb) with hlt | hgt
    · filter_upwards [hcont.eventually_lt continuousAt_const hlt] with R' h _
      exact iff_of_true h hlt
    · filter_upwards [continuousAt_const.eventually_lt hcont hgt] with R' h _
      exact iff_of_false h.le.not_gt hgt.le.not_gt
  filter_upwards [hnear, eventually_length_lt R] with R' hfew hfar
  ext b
  rw [mem_within hH, mem_within hH]
  refine and_congr_right fun hb => ?_
  by_cases hle : length H R b ≤ rcut + 1
  · exact hfew b hle hb
  · have := hfar b
    exact iff_of_false (by linarith) (by linarith)

end Within
end Bonds
