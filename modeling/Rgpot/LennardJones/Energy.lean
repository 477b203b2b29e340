import Rgpot.LennardJones.LJPot
import Rgpot.Nlist.NearestCalls

/-! The Lennard-Jones energy is a sum over nearest-image distances, so it depends on the
lattice only. -/
namespace Rgpot
open Nlist OutwardRoot Lattice

variable {K : Type} [Field K] [LinearOrder K] [FloorRing K] [OutwardRoot K]

namespace LJPot
variable {c : LJConfig K} {pot : LJPot K}

omit [FloorRing K] [OutwardRoot K] in
/-- The members of a constructed potential. -/
theorem make_eq_ok (h : LJPot.make c = .ok pot) :
    pot.u0 = c.u0 ∧ pot.cuttOffR = c.cutoff ∧ pot.psi = c.psi ∧
      pot.cuttOffU = 4 * c.u0 * (c.psi / c.cutoff) ^ 6 * ((c.psi / c.cutoff) ^ 6 - 1) ∧
      pot.switch_width = c.switch_width ∧ (c.switch_width ≠ 0 →
        0 < c.switch_width ∧ pot.switch = ⟨c.cutoff - c.switch_width, 1 / c.switch_width⟩) := by
  unfold LJPot.make at h
  simp only [bind, Except.bind, pure, Except.pure] at h
  split at h
  · next hsw =>
    unfold QuinticSwitch.endingAt at h
    split at h
    · cases h
    next sw hend =>
    split at hend
    · cases hend
    next hw =>
    rw [← Except.ok.inj h, ← Except.ok.inj hend]
    exact ⟨rfl, rfl, rfl, rfl, rfl, fun _ => ⟨by tauto, rfl⟩⟩
  · next hsw =>
    rw [← Except.ok.inj h]
    exact ⟨rfl, rfl, rfl, rfl, rfl, fun hne => (hsw hne).elim⟩

/-- The energy of one pair at squared distance `r2`. -/
def pairEnergy (pot : LJPot K) (r2 : K) : K :=
  if r2 ≤ pot.cuttOffR * pot.cuttOffR then (pot.kernel r2).energy else 0

variable [IsStrictOrderedRing K] [OutwardRoot.Lawful K]

omit [FloorRing K] [OutwardRoot K] [IsStrictOrderedRing K] [Lawful K] in
theorem value_of_ge {sw : QuinticSwitch K} {r : K} (h : 1 ≤ (r - sw.r_on) * sw.inv_width) :
    (sw.value r).s = 0 := by
  have ht : min (max ((r - sw.r_on) * sw.inv_width) 0) 1 = 1 :=
    min_eq_right (h.trans (le_max_left _ _))
  simp only [QuinticSwitch.value, ht]
  ring

omit [FloorRing K] in
/-- A pair at exactly the cutoff has no energy: the shift and the switch both end there. -/
theorem energy_at_cutoff (h : LJPot.make c = .ok pot) (hc : 0 < c.cutoff) :
    (pot.kernel (c.cutoff * c.cutoff)).energy = 0 := by
  obtain ⟨hu, hr, hpsi, hshift, hsw, hswitch⟩ := make_eq_ok h
  have hc0 : c.cutoff ≠ 0 := hc.ne'
  unfold kernel
  split
  · next hne =>
    rw [hsw] at hne
    obtain ⟨hpos, hval⟩ := hswitch hne
    have hroot : c.cutoff ≤ sqrt (c.cutoff * c.cutoff) :=
      (mul_self_le_mul_self_iff hc.le (Lawful.sqrt_nonneg _)).mpr (Lawful.le_sqrt_mul_sqrt _)
    have hend : 1 ≤ (sqrt (c.cutoff * c.cutoff) - pot.switch.r_on) * pot.switch.inv_width := by
      rw [hval]
      simp only
      rw [mul_one_div, le_div_iff₀ hpos]
      linarith
    simp only [switchedTerm, value_of_ge hend, mul_zero]
  · simp only [shiftedTerm, bareTerm, hu, hpsi, hshift]
    field_simp
    ring

end LJPot

section Sums
variable {n : ℕ} {t : ℕ → ℕ → Bool}

omit [LinearOrder K] [FloorRing K] [OutwardRoot K] in
/-- A sum over listed pairs, when the others contribute nothing. -/
theorem sum_listedPairs (f : ℕ × ℕ → K)
    (h : ∀ i j, i < j → j < n → t i j = false → f (i, j) = 0) :
    ((listedPairs n t).map f).sum = ((ascendingPairs n).map f).sum := by
  rw [listedPairs]
  have hall : ∀ p ∈ ascendingPairs n, t p.1 p.2 = false → f p = 0 := by
    rintro ⟨i, j⟩ hp
    obtain ⟨hij, hj⟩ := mem_ascendingPairs.mp hp
    exact h i j hij hj
  generalize ascendingPairs n = ps at hall
  induction ps with
  | nil => rfl
  | cons p ps ih =>
    have ih' := ih fun q hq => hall q (List.mem_cons_of_mem _ hq)
    cases hp : t p.1 p.2 with
    | true => rw [List.filter_cons_of_pos (by simpa using hp), List.map_cons, List.map_cons,
        List.sum_cons, List.sum_cons, ih']
    | false => rw [List.filter_cons_of_neg (by simp [hp]), List.map_cons, List.sum_cons,
        hall p List.mem_cons_self hp, zero_add, ih']

end Sums

section Energy
variable [IsStrictOrderedRing K] [OutwardRoot.Lawful K]
variable {c : LJConfig K} {pot : LJPot K} {R : Positions K} {n : ℕ} {box : Box K}
  {st : PoolState K} {out : LJOut K} {stored : Option (CachedPairList K)}

/-- What a force call returns on a nonsingular cell, whatever the pool holds. -/
theorem forceImpl_calls (hmake : LJPot.make c = .ok pot) (hc : 0 < c.cutoff)
    (hst : Reachable st) (hdet : box.det ≠ 0)
    (h : pot.forceImpl st.slots R n box = .ok (out, stored)) : ∃ v t,
      NearestCalls R n box pot.options v t ∧
      out.energy = (summed pot.law (fun _ => 0) (fun _ => 0)
        ((listedPairs n t).map (recordOf v))).energy ∧
      out.F = (summed pot.law (fun _ => 0) (fun _ => 0)
        ((listedPairs n t).map (recordOf v))).F ∧
      (out.stress, out.has_stress) = publishCauchyStress (summed pot.law (fun _ => 0) (fun _ => 0)
        ((listedPairs n t).map (recordOf v))).obs (cellVolume box) := by
  obtain ⟨-, hr, -⟩ := LJPot.make_eq_ok hmake
  unfold LJPot.forceImpl at h
  simp only at h
  split at h
  · next hsmall =>
    -- fewer than two atoms: no pair at all
    have hn : n < 2 := hsmall.resolve_right (by rw [hr]; exact not_le.mpr hc)
    have hpairs : ∀ i j, i < j → ¬ j < n := fun i j hij hj => by omega
    obtain ⟨rfl, -⟩ := Prod.mk.inj (Except.ok.inj h)
    have hnil : listedPairs n (fun _ _ => false) = [] := by simp [listedPairs]
    refine ⟨fun _ _ => 0, fun _ _ => false, ⟨fun i j hij hj => (hpairs i j hij hj).elim,
      fun i j hij hj => (hpairs i j hij hj).elim, fun i j hij hj => (hpairs i j hij hj).elim⟩, ?_⟩
    rw [hnil]
    simp [summed, Sums.extend]
  · simp only [bind, Except.bind, pure, Except.pure] at h
    split at h
    · cases h
    next r hrun =>
    obtain ⟨rfl, -⟩ := Prod.mk.inj (Except.ok.inj h)
    obtain ⟨v, t, hcalls, hs⟩ := accumulate_nearest hst hdet (fun _ => rfl)
      (show 0 ≤ pot.options.cutoff by rw [LJPot.options, hr]; exact hc.le)
      (show 0 < pot.options.skin by simp [LJPot.options]) hrun
    exact ⟨v, t, hcalls, by rw [hs], by rw [hs], by rw [hs]⟩

/-- The energy is the sum of the pair energies at nearest-image distances. -/
theorem forceImpl_energy (hmake : LJPot.make c = .ok pot) (hc : 0 < c.cutoff)
    (hst : Reachable st) (hdet : box.det ≠ 0)
    (h : pot.forceImpl st.slots R n box = .ok (out, stored)) : ∃ v : ℕ → ℕ → Vec3 K,
      (∀ i j, i < j → j < n → IsNearest box (fun _ => true) (R i - R j) (v i j)) ∧
      out.energy =
        ((ascendingPairs n).map fun p => pot.pairEnergy (normSq (v p.1 p.2))).sum := by
  obtain ⟨-, hr, -⟩ := LJPot.make_eq_ok hmake
  obtain ⟨v, t, hcalls, henergy, -⟩ := forceImpl_calls hmake hc hst hdet h
  refine ⟨v, hcalls.nearest, ?_⟩
  rw [henergy, summed_energy, List.map_map, ← sum_listedPairs (t := t)]
  · congr 1
    apply List.map_congr_left
    rintro ⟨i, j⟩ hp
    obtain ⟨hij, hj, ht⟩ := mem_listedPairs.mp hp
    have hin : sqNorm (v i j) ≤ pot.cuttOffR * pot.cuttOffR := hcalls.within i j hij hj ht
    simp only [Function.comp_apply, recordOf, LJPot.law, LJPot.pairEnergy, ← sqNorm_eq_normSq]
    rw [if_pos hin]
  · intro i j hij hj ht
    simp only [LJPot.pairEnergy, ← sqNorm_eq_normSq]
    split
    · next hle =>
      -- a pair left out below or at the cutoff is at the cutoff
      have hge := not_lt.mp fun hlt => Bool.eq_false_iff.mp ht (hcalls.below i j hij hj hlt)
      have hat : sqNorm (v i j) = c.cutoff * c.cutoff := by
        rw [hr] at hle
        simp only [LJPot.options, hr] at hge
        exact le_antisymm hle hge
      rw [hat, LJPot.energy_at_cutoff hmake hc]
    · rfl

/-- The periodic energy is a function of the lattice and of the atoms modulo it: a unimodular
change of basis and lattice shifts of the atoms leave it as it is, on both search paths and
after any earlier calls. -/
theorem energy_of_lattice (hmake : LJPot.make c = .ok pot) (hc : 0 < c.cutoff)
    (hdet : box.det ≠ 0) {M : Matrix (Fin 3) (Fin 3) ℤ} (hM : M.det = 1 ∨ M.det = -1)
    (m : ℕ → Fin 3 → ℤ) {st st' : PoolState K} (hst : Reachable st) (hst' : Reachable st')
    {out out' : LJOut K} {stored stored' : Option (CachedPairList K)}
    (h : pot.forceImpl st.slots R n box = .ok (out, stored))
    (h' : pot.forceImpl st'.slots (fun a => R a + Matrix.vecMul (fun i => (m a i : K)) box) n
      (M.map (Int.cast : ℤ → K) * box) = .ok (out', stored')) :
    out.energy = out'.energy := by
  have hunit : IsUnit M.det := by
    rcases hM with hM | hM <;> rw [hM]
    · exact isUnit_one
    · exact isUnit_one.neg
  have hdet' : (M.map (Int.cast : ℤ → K) * box).det ≠ 0 := by
    rw [Matrix.det_mul]
    refine mul_ne_zero ?_ hdet
    have hcast : (M.map (Int.cast : ℤ → K)).det = ((M.det : ℤ) : K) := by
      exact (RingHom.map_det (Int.castRingHom K) M).symm
    rw [hcast]
    rcases hM with hM | hM <;> simp [hM]
  obtain ⟨v, hv, henergy⟩ := forceImpl_energy hmake hc hst hdet h
  obtain ⟨v', hv', henergy'⟩ := forceImpl_energy hmake hc hst' hdet' h'
  rw [henergy, henergy']
  congr 1
  apply List.map_congr_left
  rintro ⟨i, j⟩ hp
  obtain ⟨hij, hj⟩ := mem_ascendingPairs.mp hp
  have hshift : (R i + Matrix.vecMul (fun k => (m i k : K)) box) -
      (R j + Matrix.vecMul (fun k => (m j k : K)) box) = image box (R i - R j) (m j - m i) := by
    have hvec : (fun k => (((m j - m i) k : ℤ) : K)) =
        (fun k => (m j k : K)) - fun k => (m i k : K) := by
      ext k
      simp
    rw [image, hvec, Matrix.sub_vecMul]
    abel
  have hnear' := (hv' i j hij hj).of_basis hunit
  rw [hshift] at hnear'
  have hnear := (hv i j hij hj).shift (m := m j - m i) fun k hk => by simp at hk
  rw [hnear.normSq_eq hnear']

end Energy

section Sheared

/-- The cubic cell of side 10 in a skewed basis. -/
def shear : Matrix (Fin 3) (Fin 3) ℤ := !![1, 1, 0; 0, 1, 0; 0, 0, 1]

def shortLJ : LJConfig ℚ := { cutoff := 3 }

/-- Two atoms at distance 3/2, the second one cell over in the skewed description. -/
theorem energy_of_lattice_sheared : ∃ out out' stored stored' pot,
    LJPot.make shortLJ = .ok pot ∧
    pot.forceImpl [] (twoAtoms 0 (3 / 2)) 2 cubicBox = .ok (out, stored) ∧
    pot.forceImpl [] (fun a => twoAtoms 0 (3 / 2) a +
      Matrix.vecMul (fun i => ((![(a : ℤ), 0, 0] : Fin 3 → ℤ) i : ℚ)) cubicBox) 2
      (shear.map (Int.cast : ℤ → ℚ) * cubicBox) = .ok (out', stored') ∧
    out.energy = out'.energy := by
  obtain ⟨pot, hpot⟩ : ∃ pot, LJPot.make shortLJ = .ok pot := ⟨_, rfl⟩
  have hrun : ∀ R box, ((LJPot.make shortLJ).toOption.bind fun pot =>
      (pot.forceImpl [] R 2 box).toOption).isSome = true →
      ∃ r, pot.forceImpl [] R 2 box = .ok r := by
    intro R box h
    cases hf : pot.forceImpl [] R 2 box with
    | ok r => exact ⟨r, rfl⟩
    | error e => simp [hpot, hf, Except.toOption] at h
  obtain ⟨⟨out, stored⟩, h⟩ := hrun (twoAtoms 0 (3 / 2)) cubicBox (by decide +kernel)
  obtain ⟨⟨out', stored'⟩, h'⟩ := hrun (fun a => twoAtoms 0 (3 / 2) a +
    Matrix.vecMul (fun i => ((![(a : ℤ), 0, 0] : Fin 3 → ℤ) i : ℚ)) cubicBox)
    (shear.map (Int.cast : ℤ → ℚ) * cubicBox) (by decide +kernel)
  have hst : Reachable (PoolState.initial : PoolState ℚ) := Relation.ReflTransGen.refl
  exact ⟨out, out', stored, stored', pot, hpot, h, h', energy_of_lattice hpot (by decide +kernel)
    (by decide +kernel) (Or.inl (by decide +kernel)) (fun a => ![(a : ℤ), 0, 0]) hst hst h h'⟩

end Sheared
end Rgpot
