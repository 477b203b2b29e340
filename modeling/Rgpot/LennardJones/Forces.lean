import Rgpot.LennardJones.Gradient
import Rgpot.Nlist.SearchReturns

/-! What a Lennard-Jones force call returns: energy, forces and stress of one potential energy. -/
namespace Rgpot
open Nlist Lattice Matrix

section Outputs
variable {K : Type} [Field K] [LinearOrder K] [OutwardRoot K]

omit [LinearOrder K] [OutwardRoot K] in
theorem list_sum_apply {α : Type} (l : List α) (f : α → Vec3 K) (k : Fin 3) :
    (l.map f).sum k = (l.map fun x => f x k).sum := by
  induction l with
  | nil => rfl
  | cons x l ih => simp only [List.map_cons, List.sum_cons, Pi.add_apply, ih]

omit [OutwardRoot K] [LinearOrder K] in
/-- The forces of all atoms cancel pair by pair. -/
theorem sum_forces (law : PairLaw K (Voigt K)) (obs : Voigt K) (n : ℕ) {vs : List (Visit K)}
    (h : ∀ v ∈ vs, v.i < n ∧ v.j < n) :
    ∑ a ∈ Finset.range n, (summed law (fun _ => 0) obs vs).F a = 0 := by
  simp only [summed_F, zero_add]
  induction vs with
  | nil => simp
  | cons v vs ih =>
    have hv := h v List.mem_cons_self
    simp only [List.map_cons, List.sum_cons, Finset.sum_add_distrib,
      ih fun w hw => h w (List.mem_cons_of_mem _ hw), add_zero, pairForce,
      Finset.sum_sub_distrib, Finset.sum_ite_eq, Finset.mem_range, if_pos hv.1, if_pos hv.2,
      sub_self]

/-- The tensor of the Voigt components xx, yy, zz, yz, xz, xy. -/
def voigtTensor (s : Voigt K) : Matrix (Fin 3) (Fin 3) K :=
  !![s 0, s 5, s 4; s 5, s 1, s 3; s 4, s 3, s 2]

/-- The row-major stress as a matrix. -/
def stressMatrix (s : Fin 9 → K) : Matrix (Fin 3) (Fin 3) K :=
  !![s 0, s 1, s 2; s 3, s 4, s 5; s 6, s 7, s 8]

omit [LinearOrder K] [OutwardRoot K] in
theorem voigtTensor_accumulate (acc : Voigt K) (fscale : K) (d : Vec3 K) :
    voigtTensor (accumulatePairStrain acc fscale d) =
      voigtTensor acc - Matrix.of fun r s => fscale * (d r * d s) := by
  ext r s
  fin_cases r <;> fin_cases s <;> simp [voigtTensor, accumulatePairStrain] <;> ring

omit [LinearOrder K] [OutwardRoot K] in
/-- The strain accumulator is minus the virial of the records. -/
theorem voigtTensor_obs (law : PairLaw K (Voigt K)) (hobs : law.observe = accumulatePairStrain)
    (acc : Voigt K) (vs : List (Visit K)) (r s : Fin 3) :
    voigtTensor (vs.foldl (fun o v => law.observe o (law.kernel v.i v.j v.r2).fscale v.d) acc) r s =
      voigtTensor acc r s -
        (vs.map fun v => (law.kernel v.i v.j v.r2).fscale * (v.d r * v.d s)).sum := by
  induction vs generalizing acc with
  | nil => simp
  | cons v vs ih =>
    rw [List.foldl_cons, ih, hobs, voigtTensor_accumulate, List.map_cons, List.sum_cons]
    simp only [Matrix.sub_apply, Matrix.of_apply]
    ring

omit [Field K] [LinearOrder K] [OutwardRoot K] in
theorem voigtTensor_symm (s : Voigt K) : (voigtTensor s)ᵀ = voigtTensor s := by
  ext r c
  fin_cases r <;> fin_cases c <;> rfl

omit [OutwardRoot K] in
theorem cellVolume_eq (box : Box K) : cellVolume box = |box.det| := by
  rw [← cellDet_eq_det]
  rfl

omit [OutwardRoot K] in
/-- The published stress divides by the volume and unpacks the Voigt order. -/
theorem stressMatrix_publish (acc : Voigt K) {volume : K} (h : 0 < volume) :
    (publishCauchyStress acc volume).2 = true ∧
      stressMatrix (publishCauchyStress acc volume).1 = (1 / volume) • voigtTensor acc := by
  rw [publishCauchyStress, if_neg (not_not.mpr h)]
  refine ⟨rfl, ?_⟩
  ext r c
  fin_cases r <;> fin_cases c <;> simp [stressMatrix, voigtTensor, mul_comm]

end Outputs

section Gradients
variable {c : LJConfig ℝ} {pot : LJPot ℝ} {R : Positions ℝ} {n : ℕ} {box : Box ℝ}
  {v : ℕ → ℕ → Vec3 ℝ} {t : ℕ → ℕ → Bool}

/-- A unit displacement of one coordinate of one atom. -/
def pulse (a : ℕ) (k : Fin 3) (b : ℕ) : Vec3 ℝ := if b = a then Pi.single k 1 else 0

theorem dotProduct_pulse (w : Vec3 ℝ) (a : ℕ) (k : Fin 3) (b : ℕ) :
    w ⬝ᵥ pulse a k b = if b = a then w k else 0 := by
  unfold pulse
  split
  · exact dotProduct_single_one w k
  · exact dotProduct_zero w

/-- The force on one coordinate is the work of the pair forces under its displacement. -/
theorem force_eq_work (obs : Voigt ℝ) (a : ℕ) (k : Fin 3) :
    (summed pot.law (fun _ => 0) obs ((listedPairs n t).map (recordOf v))).F a k =
      ((listedPairs n t).map fun p => (pot.kernel (normSq (v p.1 p.2))).fscale *
        (v p.1 p.2 ⬝ᵥ (v p.1 p.2 ᵥ* (0 : Matrix (Fin 3) (Fin 3) ℝ) +
          (pulse a k p.1 - pulse a k p.2)))).sum := by
  rw [summed_F, zero_add, list_sum_apply, List.map_map]
  congr 1
  apply List.map_congr_left
  rintro ⟨i, j⟩ -
  simp only [Function.comp_apply, recordOf, pairForce, LJPot.law, Pi.sub_apply,
    Matrix.vecMul_zero, zero_add, dotProduct_sub, dotProduct_pulse, sqNorm_eq_normSq]
  by_cases hi : i = a <;> by_cases hj : j = a <;> simp [recordForce, hi, hj]

/-- Moving one coordinate, as a displacement path. -/
theorem ljEnergy_update (a : ℕ) (k : Fin 3) (x : ℝ) :
    ljEnergy c n (Function.update R a (Function.update (R a) k x)) box =
      ljEnergy c n (fun b => strained (R b) 0 (pulse a k b) (x - R a k))
        (strainedCell box 0 (x - R a k)) := by
  have hcell : strainedCell box 0 (x - R a k) = box := by simp [strainedCell]
  have hpos : Function.update R a (Function.update (R a) k x) =
      fun b => strained (R b) 0 (pulse a k b) (x - R a k) := by
    funext b
    rw [strained_eq_add, Matrix.vecMul_zero, zero_add]
    by_cases hb : b = a
    · subst hb
      rw [Function.update_self]
      ext m
      by_cases hm : m = k
      · subst hm
        simp [pulse]
      · simp [pulse, hm]
    · rw [Function.update_of_ne hb]
      simp [pulse, hb]
  rw [hcell, hpos]

theorem sum_mul_dotProduct_vecMul (w : Vec3 ℝ) (E : Matrix (Fin 3) (Fin 3) ℝ) :
    w ⬝ᵥ (w ᵥ* E) = ∑ r, ∑ s, w r * w s * E r s := by
  simp only [dotProduct, vecMul, Finset.mul_sum]
  rw [Finset.sum_comm]
  refine Finset.sum_congr rfl fun r _ => Finset.sum_congr rfl fun s _ => ?_
  ring

/-- The strain accumulator paired with a strain is minus the work of the pair forces. -/
theorem strain_eq_work (E : Matrix (Fin 3) (Fin 3) ℝ) :
    ∑ r, ∑ s, voigtTensor (summed pot.law (fun _ => 0) (fun _ => 0)
        ((listedPairs n t).map (recordOf v))).obs r s * E r s =
      -((listedPairs n t).map fun p => (pot.kernel (normSq (v p.1 p.2))).fscale *
        (v p.1 p.2 ⬝ᵥ (v p.1 p.2 ᵥ* E + ((0 : Vec3 ℝ) - 0)))).sum := by
  have hzero : ∀ r s, voigtTensor (fun _ => (0 : ℝ)) r s = 0 := by
    intro r s
    fin_cases r <;> fin_cases s <;> rfl
  simp only [summed_obs, voigtTensor_obs pot.law rfl, hzero, zero_sub, sub_zero, add_zero]
  induction listedPairs n t with
  | nil => simp
  | cons p ps ih =>
    simp only [sum_mul_dotProduct_vecMul, LJPot.law] at ih
    simp only [List.map_cons, List.sum_cons, neg_add, add_mul, Finset.sum_add_distrib, ih,
      sum_mul_dotProduct_vecMul, recordOf, LJPot.law, sqNorm_eq_normSq]
    congr 1
    rw [Finset.mul_sum, ← Finset.sum_neg_distrib]
    refine Finset.sum_congr rfl fun r _ => ?_
    rw [Finset.mul_sum, ← Finset.sum_neg_distrib]
    refine Finset.sum_congr rfl fun s _ => ?_
    ring

/-- An output that is the energy of `ljEnergy` with minus its gradient as the forces, which
cancel, and its strain gradient over the volume as a symmetric stress. -/
structure Gradients (c : LJConfig ℝ) (R : Positions ℝ) (n : ℕ) (box : Box ℝ) (out : LJOut ℝ) :
    Prop where
  energy : out.energy = ljEnergy c n R box
  force : ∀ a k, HasDerivAt (fun x => ljEnergy c n
    (Function.update R a (Function.update (R a) k x)) box) (-(out.F a k)) (R a k)
  force_sum : ∑ a ∈ Finset.range n, out.F a = 0
  has_stress : out.has_stress = true
  stress_symm : (stressMatrix out.stress)ᵀ = stressMatrix out.stress
  stress : ∀ E : Matrix (Fin 3) (Fin 3) ℝ, HasDerivAt
    (fun x : ℝ => ljEnergy c n (fun a => R a ᵥ* (1 + x • E)) (box * (1 + x • E)))
    (|box.det| * ∑ r, ∑ s, stressMatrix out.stress r s * E r s) 0

/-- Whatever the pool holds, a force call returns unless the image search of a general cell refuses
the cell or a separation. -/
theorem exists_forceImpl_iff (hmake : LJPot.make c = .ok pot) (hc : 0 < c.cutoff)
    {st : PoolState ℝ} (hst : Reachable st) (hdet : box.det ≠ 0) :
    (∃ r, pot.forceImpl st.slots R n box = .ok r) ↔ n < 2 ∨ orthorhombic box = true ∨
      MinimumImage.WellConditioned box ∧ ∀ i j, i < j → j < n →
        (MinimumImage.ofCell box fun _ => true).Fits (R i - R j) := by
  obtain ⟨-, hr, -⟩ := LJPot.make_eq_ok hmake
  have hcut : 0 < pot.cuttOffR := hr ▸ hc
  by_cases hn : n < 2
  · simp only [LJPot.forceImpl, hn, true_or, if_true, iff_true]
    exact ⟨_, rfl⟩
  · have hcall : (∃ r, pot.forceImpl st.slots R n box = .ok r) ↔
        ∃ r, accumulateWith (lookup st.slots R n box pot.options).1 R n box pot.options pot.law
          (fun _ => 0) (fun _ => 0) = .ok r := by
      unfold LJPot.forceImpl
      simp only [hn, not_le.mpr hcut, or_self, if_false]
      constructor
      · rintro ⟨r, h⟩
        obtain ⟨s, hs, -⟩ := Fallible.bind_eq_ok.mp h
        exact ⟨s, hs⟩
      · rintro ⟨s, hs⟩
        rw [hs]
        exact ⟨_, rfl⟩
    rw [hcall]
    cases hbox : orthorhombic box with
    | true =>
      obtain ⟨calls, stored, hrun, -⟩ := accumulateWith_eq (hst.served R n box pot.options)
        (not_general_of_orthorhombic hbox) (show 0 ≤ pot.options.cutoff from hcut.le)
        (show 0 < pot.options.skin by simp [LJPot.options]) pot.law (fun _ => 0) (fun _ => 0)
      simp only [hrun, true_or, or_true, iff_true]
      exact ⟨_, rfl⟩
    | false =>
      have hgen : isGeneral box pot.options = true := by simp [isGeneral, hbox, LJPot.options]
      rw [lookup_general hst hgen, exists_accumulate_general_iff hgen hdet]
      simp only [hn, false_or, Bool.false_eq_true]
      rfl

/-- Every force call that returns gives one energy and its gradients, whatever the pool holds; it
returns unless the image search of a general cell refuses the cell or a separation. -/
theorem forceImpl_gradients (hmake : LJPot.make c = .ok pot) (hc : 0 < c.cutoff)
    (hsw : c.switch_width = 0) {st : PoolState ℝ} (hst : Reachable st) (hdet : box.det ≠ 0)
    (hreg : Regular c R n box) :
    ((∃ r, pot.forceImpl st.slots R n box = .ok r) ↔ n < 2 ∨ orthorhombic box = true ∨
      MinimumImage.WellConditioned box ∧ ∀ i j, i < j → j < n →
        (MinimumImage.ofCell box fun _ => true).Fits (R i - R j)) ∧
    ∀ out stored, pot.forceImpl st.slots R n box = .ok (out, stored) →
      Gradients c R n box out := by
  constructor
  · exact exists_forceImpl_iff hmake hc hst hdet
  · intro out stored h
    obtain ⟨v, t, hcalls, henergy, hF, hstress⟩ := forceImpl_calls hmake hc hst hdet h
    obtain ⟨v', hv', henergy'⟩ := forceImpl_energy hmake hc hst hdet h
    have hvol : 0 < cellVolume box := by
      rw [cellVolume_eq]
      exact abs_pos.mpr hdet
    obtain ⟨hhas, hpub⟩ := stressMatrix_publish (summed pot.law (fun _ => 0) (fun _ => 0)
      ((listedPairs n t).map (recordOf v))).obs hvol
    rw [← hstress] at hhas hpub
    refine ⟨?_, ?_, ?_, hhas, ?_, ?_⟩
    · rw [henergy', ljEnergy, sum_pairs]
      congr 1
      apply List.map_congr_left
      rintro ⟨i, j⟩ hp
      obtain ⟨hij, hj⟩ := mem_ascendingPairs.mp hp
      exact (pairPotential_of_nearest hmake hc hsw (hv' i j hij hj)).symm
    · intro a k
      have hpath := hasDerivAt_ljEnergy hmake hc hsw hdet hreg hcalls 0 (pulse a k)
      rw [← force_eq_work (fun _ => 0) a k, ← hF] at hpath
      simp only [ljEnergy_update]
      exact HasDerivAt.comp_sub_const (R a k) (R a k) (by rwa [sub_self])
    · rw [hF]
      apply sum_forces
      intro w hw
      obtain ⟨⟨i, j⟩, hp, rfl⟩ := List.mem_map.mp hw
      obtain ⟨hij, hj, -⟩ := mem_listedPairs.mp hp
      exact ⟨hij.trans hj, hj⟩
    · rw [hpub, Matrix.transpose_smul, voigtTensor_symm]
    · intro E
      have hpath := hasDerivAt_ljEnergy hmake hc hsw hdet hreg hcalls E fun _ => 0
      rw [← strain_eq_work] at hpath
      have hsum : |box.det| * ∑ r, ∑ s, stressMatrix out.stress r s * E r s =
          ∑ r, ∑ s, voigtTensor (summed pot.law (fun _ => 0) (fun _ => 0)
            ((listedPairs n t).map (recordOf v))).obs r s * E r s := by
        rw [hpub, cellVolume_eq, Finset.mul_sum]
        refine Finset.sum_congr rfl fun r _ => ?_
        rw [Finset.mul_sum]
        refine Finset.sum_congr rfl fun s _ => ?_
        rw [Matrix.smul_apply, smul_eq_mul, ← mul_assoc, ← mul_assoc,
          mul_one_div_cancel (abs_pos.mpr hdet).ne', one_mul]
      rw [hsum]
      simpa only [strained, smul_zero, add_zero, strainedCell] using hpath

end Gradients

section Cells
variable {c : LJConfig ℝ} {R : Positions ℝ} {box : Box ℝ} {w : ℝ} {d v : Vec3 ℝ}

theorem abs_le_abs_sub_mul {w x : ℝ} (hw : 0 < w) (hx : |x| < w / 2) (k : ℤ) :
    |x| ≤ |x - w * k| := by
  have h0 := Rounding.foldAxis_eq_of_abs_lt hw (d := x) (m := 0) (by simpa using hx)
  have h := Rounding.abs_foldAxis_le_abs hw.ne' x k
  rwa [h0, Int.cast_zero, mul_zero, sub_zero] at h

theorem eq_zero_of_abs_eq {x : ℝ} (hw : 0 < w) (hx : |x| < w / 2) {k : ℤ}
    (h : |x - w * k| ≤ |x|) : k = 0 := by
  have hm := Rounding.foldAxis_eq_of_abs_lt hw (h.trans_lt hx)
  have h0 := Rounding.foldAxis_eq_of_abs_lt hw (d := x) (m := 0) (by simpa using hx)
  rw [hm] at h0
  have : w * (k : ℝ) = 0 := by simpa using h0
  exact_mod_cast (mul_eq_zero.mp this).resolve_left hw.ne'

/-- On a cubic lattice of side `w`, a short vector is its own and only nearest image. -/
theorem isNearest_iff_of_short (hw : 0 < w) (hd : ∀ i, |d i| < w / 2)
    (hk : ∀ n, ∃ k : Fin 3 → ℤ, image box d n = fun i => d i - w * k i) :
    IsNearest box (fun _ => true) d v ↔ v = d := by
  have hself : IsNearest box (fun _ => true) d d := by
    refine ⟨⟨0, fun _ _ => rfl, (image_zero box d).symm⟩, fun n _ => ?_⟩
    obtain ⟨k, hk⟩ := hk n
    rw [hk]
    change ∑ i, d i * d i ≤ ∑ i, (d i - w * k i) * (d i - w * k i)
    exact Finset.sum_le_sum fun i _ =>
      abs_le_iff_mul_self_le.mp (abs_le_abs_sub_mul hw (hd i) (k i))
  refine ⟨fun hv => ?_, fun hv => hv ▸ hself⟩
  obtain ⟨n, -, rfl⟩ := hv.is_image
  obtain ⟨k, hk⟩ := hk n
  have hsum : ∑ i, d i * d i = ∑ i, (d i - w * k i) * (d i - w * k i) := by
    have := hself.normSq_eq hv
    rw [hk] at this
    exact this
  have hle : ∀ i ∈ Finset.univ, d i * d i ≤ (d i - w * k i) * (d i - w * k i) :=
    fun i _ => abs_le_iff_mul_self_le.mp (abs_le_abs_sub_mul hw (hd i) (k i))
  have heq := (Finset.sum_eq_sum_iff_of_le hle).mp hsum
  rw [hk]
  funext i
  have hki := eq_zero_of_abs_eq hw (hd i) (abs_le_iff_mul_self_le.mpr (heq i (Finset.mem_univ i)).ge)
  rw [hki, Int.cast_zero, mul_zero, sub_zero]

/-- Two atoms a short vector apart form a regular configuration. -/
theorem regular_two (hw : 0 < w) (hd : ∀ i, |(R 0 - R 1) i| < w / 2) (h0 : R 0 - R 1 ≠ 0)
    (hlen : len (R 0 - R 1) ≠ c.cutoff)
    (hk : ∀ n, ∃ k : Fin 3 → ℤ, image box (R 0 - R 1) n = fun i => (R 0 - R 1) i - w * k i) :
    Regular c R 2 box := by
  have hnear : ∀ v, IsNearest box (fun _ => true) (R 0 - R 1) v ↔ v = R 0 - R 1 :=
    fun v => isNearest_iff_of_short hw hd hk
  have hpair : ∀ i j, i < j → j < 2 → i = 0 ∧ j = 1 := by omega
  constructor
  · intro i j hij hj m hm
    obtain ⟨rfl, rfl⟩ := hpair i j hij hj
    have hle := ((hnear _).mpr rfl).le_image m fun _ h => by simp at h
    rw [hm] at hle
    apply h0
    have hz : normSq (R 0 - R 1) = 0 :=
      le_antisymm (by simpa [normSq] using hle) (normSq_nonneg _)
    exact dotProduct_self_eq_zero.mp hz
  · intro i j hij hj
    obtain ⟨rfl, rfl⟩ := hpair i j hij hj
    rwa [((hnear _).mpr rfl).minDist_eq]
  · intro i j hij hj v v' hv hv' _
    obtain ⟨rfl, rfl⟩ := hpair i j hij hj
    rw [(hnear v).mp hv, (hnear v').mp hv']

/-- Two atoms, `x` apart along the first axis. -/
def dimer (x : ℝ) : Positions ℝ := fun a => if a = 0 then ![x, 0, 0] else 0

theorem dimer_sub (x : ℝ) : dimer x 0 - dimer x 1 = ![x, 0, 0] := by
  simp [dimer]

theorem len_dimer {x : ℝ} (hx : 0 ≤ x) : len (dimer x 0 - dimer x 1) = x := by
  have h := len_mul_self (dimer x 0 - dimer x 1)
  rw [dimer_sub, normSq, dotProduct, Fin.sum_univ_three] at h
  rw [dimer_sub]
  simp only [Matrix.cons_val, mul_zero, add_zero] at h
  exact (mul_self_inj (len_nonneg _) hx).mp h

/-- Regularity of a dimer no longer than half the side of its cubic lattice. -/
theorem regular_dimer {x : ℝ} (hx : 0 < x) (hw : x < w / 2) (hlen : x ≠ c.cutoff)
    (hk : ∀ n, ∃ k : Fin 3 → ℤ, image box ![x, 0, 0] n = fun i => ![x, 0, 0] i - w * k i) :
    Regular c (dimer x) 2 box := by
  have hwpos : 0 < w := by linarith
  refine regular_two hwpos ?_ ?_ (by rwa [len_dimer hx.le]) (by rwa [dimer_sub])
  · intro i
    rw [dimer_sub]
    fin_cases i
    · simpa [abs_of_pos hx] using hw
    · simpa using hwpos
    · simpa using hwpos
  · intro h
    rw [dimer_sub] at h
    exact hx.ne' (congrFun h 0)

noncomputable def shortConfig : LJConfig ℝ := { cutoff := 3 }

noncomputable def shortPot : LJPot ℝ :=
  ⟨1, 3, 1, 4 * 1 * (1 / 3) ^ 6 * ((1 / 3) ^ 6 - 1), 0, ⟨0, 0⟩⟩

theorem make_shortConfig : LJPot.make shortConfig = .ok shortPot := by
  simp [LJPot.make, shortConfig, shortPot, bind, Except.bind, pure, Except.pure]

/-- A cell with a slanted second row. -/
def slantedCell : Box ℝ := !![10, 0, 0; 5, 10, 0; 0, 0, 10]

theorem cellInverse_slantedCell :
    cellInverse slantedCell = !![1 / 10, 0, 0; -1 / 20, 1 / 10, 0; 0, 0, 1 / 10] := by
  ext r k
  fin_cases r <;> fin_cases k <;> simp [cellInverse, cellDet, slantedCell] <;> norm_num

theorem slantedCell_wellConditioned : MinimumImage.WellConditioned slantedCell := by
  have hnorm : rowSumNorm slantedCell = 15 := by
    simp [rowSumNorm, slantedCell]
    norm_num
  have hinverse : rowSumNorm (cellInverse slantedCell) = 3 / 20 := by
    rw [cellInverse_slantedCell]
    simp [rowSumNorm]
    norm_num
  unfold MinimumImage.WellConditioned
  rw [hnorm, hinverse]
  exact Real.le_sqrt_of_sq_le (by norm_num [longDoubleEpsilon])

theorem fits_dimer_slantedCell :
    (MinimumImage.ofCell slantedCell fun _ => true).Fits (dimer (3 / 2) 0 - dimer (3 / 2) 1) := by
  rw [dimer_sub]
  have hlength : OutwardRoot.sqrt (sqNorm (![3 / 2, 0, 0] : Vec3 ℝ)) = 3 / 2 := by
    have hsq : sqNorm (![3 / 2, 0, 0] : Vec3 ℝ) = (3 / 2) * (3 / 2) := by simp [sqNorm]
    rw [hsq]
    exact Real.sqrt_mul_self (by norm_num)
  apply MinimumImage.fits_of_short
  · exact fun k => OutwardRoot.Lawful.sqrt_nonneg _
  · intro k
    simp only [MinimumImage.frac, MinimumImage.ofCell, cellInverse_slantedCell]
    fin_cases k <;> simp
    norm_num [abs_lt]
  · intro k
    have hdual : (MinimumImage.ofCell slantedCell fun _ => true).dualNorm k ≤ 1 / 2 := by
      simp only [MinimumImage.ofCell, cellInverse_slantedCell]
      refine Real.sqrt_le_iff.mpr ⟨by norm_num, ?_⟩
      fin_cases k <;> simp [sqNorm] <;> norm_num
    rw [hlength]
    linarith

/-- A dimer in a slanted cell. -/
theorem forceImpl_gradients_dimer : ∃ out stored,
    shortPot.forceImpl [] (dimer (3 / 2)) 2 slantedCell = .ok (out, stored) ∧
      Gradients shortConfig (dimer (3 / 2)) 2 slantedCell out := by
  have hdet : slantedCell.det ≠ 0 := by
    rw [← cellDet_eq_det]
    simp [cellDet, slantedCell]
  have hst : Reachable (PoolState.initial : PoolState ℝ) := Relation.ReflTransGen.refl
  have hreg : Regular shortConfig (dimer (3 / 2)) 2 slantedCell := by
    refine regular_dimer (w := 5) (by norm_num) (by norm_num) (by norm_num [shortConfig])
      fun n => ⟨![2 * n 0 + n 1, 2 * n 1, 2 * n 2], ?_⟩
    funext i
    fin_cases i <;> simp [Lattice.image, slantedCell, Matrix.vecHead, Matrix.vecTail] <;> ring
  obtain ⟨hreturns, hgrad⟩ := forceImpl_gradients make_shortConfig (by norm_num [shortConfig]) rfl
    hst hdet hreg
  obtain ⟨⟨out, stored⟩, hrun⟩ := hreturns.mpr (Or.inr (Or.inr
    ⟨slantedCell_wellConditioned, fun i j hij hj => by
      obtain rfl : i = 0 := by omega
      obtain rfl : j = 1 := by omega
      exact fits_dimer_slantedCell⟩))
  exact ⟨out, stored, hrun, hgrad out stored hrun⟩

/-- A unimodular, hence nonsingular, cell with one very long row. -/
def longCell : Box ℝ := !![1, 2 ^ 32, 0; 0, 1, 0; 0, 0, 1]

theorem make_longCell : MinimumImage.make longCell (fun _ => true) =
    .error (.invalidArgument "periodic cell is too ill-conditioned for image bounds") := by
  have hdet : cellDet longCell = 1 := by
    simp [cellDet, longCell]
  have hroot : OutwardRoot.sqrt (longDoubleEpsilon : ℝ) ≤ 1 :=
    Real.sqrt_le_one.mpr (by norm_num [longDoubleEpsilon])
  have row : ∀ a : Box ℝ, |a 0 1| ≤ rowSumNorm a := by
    intro a
    calc |a 0 1| ≤ |a 0 0| + |a 0 1| + |a 0 2| := by linarith [abs_nonneg (a 0 0), abs_nonneg (a 0 2)]
      _ ≤ rowSumNorm a := ((le_max_right _ _).trans (le_max_left _ _)).trans (le_max_left _ _)
  have hnorm : (2 : ℝ) ^ 32 ≤ rowSumNorm longCell := by
    apply le_trans _ (row longCell)
    rw [show longCell 0 1 = 2 ^ 32 from rfl]
    exact le_abs_self _
  have hinv : (2 : ℝ) ^ 32 ≤ rowSumNorm (cellInverse longCell) := by
    apply le_trans _ (row (cellInverse longCell))
    have hentry : cellInverse longCell 0 1 = -2 ^ 32 := by
      rw [cellInverse, hdet]
      simp [longCell]
    rw [hentry, abs_neg]
    exact le_abs_self _
  have hguard : OutwardRoot.sqrt (longDoubleEpsilon : ℝ) <
      rowSumNorm longCell * rowSumNorm (cellInverse longCell) * longDoubleEpsilon := by
    have hprod : (2 : ℝ) ^ 32 * 2 ^ 32 ≤
        rowSumNorm longCell * rowSumNorm (cellInverse longCell) :=
      mul_le_mul hnorm hinv (by positivity) (by linarith [show (0 : ℝ) < 2 ^ 32 by positivity])
    have heps : (longDoubleEpsilon : ℝ) = 1 / 2 ^ 63 := rfl
    rw [heps] at hroot ⊢
    calc OutwardRoot.sqrt ((1 : ℝ) / 2 ^ 63) ≤ 1 := hroot
      _ < 2 ^ 32 * 2 ^ 32 * (1 / 2 ^ 63) := by norm_num
      _ ≤ _ := mul_le_mul_of_nonneg_right hprod (by positivity)
  unfold MinimumImage.make
  rw [if_neg (by rw [hdet]; exact one_ne_zero), if_pos (not_le.mpr hguard)]

/-- Not every nonsingular cell is evaluated: the image search refuses an ill-conditioned one. -/
theorem not_all_cells_evaluated : ¬ ∀ (c : LJConfig ℝ) (pot : LJPot ℝ), LJPot.make c = .ok pot →
    0 < c.cutoff → c.switch_width = 0 → ∀ st : PoolState ℝ, Reachable st →
    ∀ (R : Positions ℝ) (n : ℕ) (box : Box ℝ), box.det ≠ 0 → Regular c R n box →
    ∃ out stored, pot.forceImpl st.slots R n box = .ok (out, stored) ∧
      out.energy = ljEnergy c n R box := by
  intro h
  have hdet : longCell.det ≠ 0 := by
    rw [← cellDet_eq_det]
    simp [cellDet, longCell]
  have hreg : Regular shortConfig (dimer (1 / 4)) 2 longCell := by
    refine regular_dimer (w := 1) (by norm_num) (by norm_num) (by norm_num [shortConfig]) fun n =>
      ⟨![n 0, 2 ^ 32 * n 0 + n 1, n 2], ?_⟩
    funext i
    fin_cases i <;> simp [Lattice.image, longCell, Matrix.vecHead, Matrix.vecTail]
    ring
  obtain ⟨out, stored, hrun, -⟩ := h shortConfig shortPot make_shortConfig
    (by norm_num [shortConfig]) rfl PoolState.initial Relation.ReflTransGen.refl (dimer (1 / 4)) 2 longCell hdet hreg
  have hgen : isGeneral longCell shortPot.options = true := by
    simp [isGeneral, orthorhombic, longCell, LJPot.options]
  have hthrow : shortPot.forceImpl [] (dimer (1 / 4)) 2 longCell =
      .error (.invalidArgument "periodic cell is too ill-conditioned for image bounds") := by
    have hcut : ¬ shortPot.cuttOffR ≤ 0 := by norm_num [shortPot]
    have hper : shortPot.options.periodic = fun _ => true := rfl
    simp only [LJPot.forceImpl, lookup, List.find?_nil, accumulateWith, buildForEval, setup, hgen,
      if_true, hper, make_longCell, hcut, or_false, bind, Except.bind]
    rfl
  change shortPot.forceImpl [] (dimer (1 / 4)) 2 longCell = _ at hrun
  rw [hthrow] at hrun
  cases hrun

end Cells
end Rgpot
