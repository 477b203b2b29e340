import Rgpot.Nlist.HistoryIndependence

/-! On every nonsingular cell, a call's records carry nearest images and leave out no pair below
the cutoff. -/
namespace Rgpot.Nlist
open Lattice Fallible

variable {K : Type} [Field K] [LinearOrder K] [FloorRing K] [OutwardRoot K] {σ : Type}
variable {R : Positions K} {n : ℕ} {box : Box K} {opt : Options K}

/-- The record of a pair with a given separation. -/
def recordOf (v : ℕ → ℕ → Vec3 K) (p : ℕ × ℕ) : Visit K :=
  ⟨p.1, p.2, v p.1 p.2, sqNorm (v p.1 p.2)⟩

/-- Separations `v` that are nearest images, and the pairs `t` that reach the kernel: all below
the cutoff, none above. -/
structure NearestCalls (R : Positions K) (n : ℕ) (box : Box K) (opt : Options K)
    (v : ℕ → ℕ → Vec3 K) (t : ℕ → ℕ → Bool) : Prop where
  nearest : ∀ i j, i < j → j < n → IsNearest box opt.periodic (R i - R j) (v i j)
  within : ∀ i j, i < j → j < n → t i j = true → sqNorm (v i j) ≤ opt.cutoff * opt.cutoff
  below : ∀ i j, i < j → j < n → sqNorm (v i j) < opt.cutoff * opt.cutoff → t i j = true

section General

/-- The image a search returned. -/
def foldedImage (img : MinimumImage K) (d : Vec3 K) : Vec3 K := (img.fold d).toOption.getD 0

theorem foldedImage_eq {img : MinimumImage K} {d v : Vec3 K} (h : img.fold d = .ok v) :
    v = foldedImage img d := by
  simp [foldedImage, h, Except.toOption]

theorem generalVisit_eq_ok {img : MinimumImage K} {lc : ListCutoff K} {vc : K}
    {r : List (ℕ × ℕ) × List (Visit K)} (h : generalVisit img R n lc vc = .ok r) :
    (∀ i j, i < j → j < n → img.fold (R j - R i) = .ok (foldedImage img (R j - R i))) ∧
      r.1 = listedPairs n fun i j => lc.admits (sqNorm (foldedImage img (R j - R i))) := by
  unfold generalVisit at h
  simp only [bind, Except.bind, pure, Except.pure] at h
  split at h
  · cases h
  next vs hvs =>
  obtain ⟨rfl, hall⟩ := mapM_ok (g := fun p : ℕ × ℕ =>
    (⟨p.1, p.2, foldedImage img (R p.2 - R p.1), sqNorm (foldedImage img (R p.2 - R p.1))⟩ :
      Visit K)) (fun p y hy => by
        cases hf : img.fold (R p.2 - R p.1) with
        | error _ => simp [hf] at hy
        | ok d =>
          simp only [hf, Except.ok.injEq] at hy
          rw [← hy, foldedImage_eq hf]) hvs
  constructor
  · intro i j hij hj
    have := hall (i, j) (mem_ascendingPairs.mpr ⟨hij, hj⟩)
    cases hf : img.fold (R j - R i) with
    | error _ => simp [hf] at this
    | ok d => rw [← foldedImage_eq hf]
  · rw [← Except.ok.inj h]
    simp only [List.filter_map, List.map_map]
    exact List.map_id _

/-- The pairs a general cell's scan finds within the cutoff. -/
def scannedWithin (img : MinimumImage K) (R : Positions K) (opt : Options K) (i j : ℕ) : Bool :=
  sqNorm (foldedImage img (R j - R i)) ≤ opt.cutoff * opt.cutoff

/-- A list of a general cell comes from an accepted cell and a scan whose folds all returned. -/
theorem buildForEval_general (hgen : isGeneral box opt = true) {l : CachedPairList K}
    (h : buildForEval R n box opt = .ok l) : ∃ img, MinimumImage.make box opt.periodic = .ok img ∧
      (∀ i j, i < j → j < n → img.fold (R j - R i) = .ok (foldedImage img (R j - R i))) ∧
      Lists l n (scannedWithin img R opt) ∧ l.fold = .general ∧ l.generalImage = img ∧
      l.opt = opt := by
  unfold buildForEval setup at h
  simp only [hgen, if_true, bind, Except.bind, pure, Except.pure] at h
  split at h
  · cases h
  next st hst =>
  split at hst
  · cases hst
  next img himg =>
  cases hst
  split at h
  · cases h
  next r hr =>
  simp only [collect, if_true] at hr
  obtain ⟨hfold, hpairs⟩ := generalVisit_eq_ok hr
  rw [← Except.ok.inj h]
  exact ⟨img, himg, hfold, finishRebuild_lists (by rw [hpairs]; exact List.Perm.refl _)
    fun _ => hpairs, rfl, rfl, rfl⟩

/-- The evaluation loop of a general cell folds the listed pairs the other way round. -/
theorem forEach_general {l : CachedPairList K} {img : MinimumImage K} {t : ℕ → ℕ → Bool}
    (hl : Lists l n t) (hfold : l.fold = .general) (himg : l.generalImage = img)
    {vs : List (Visit K)} (h : l.forEach R = .ok vs) :
    (∀ i j, i < j → j < n → t i j = true →
      img.fold (R i - R j) = .ok (foldedImage img (R i - R j))) ∧
    vs = ((listedPairs n t).map (recordOf fun i j => foldedImage img (R i - R j))).filter
      fun v => v.r2 ≤ l.opt.cutoff * l.opt.cutoff := by
  have hcand : ∀ e, l.candidate R e = (img.fold (R e.1 - R (l.nbr e.2))).map fun d =>
      (⟨e.1, l.nbr e.2, d, sqNorm d⟩ : Visit K) := by
    intro e
    simp only [CachedPairList.candidate, CachedPairList.apply, hfold, himg, bind, Except.bind,
      pure, Except.pure, Except.map]
  unfold CachedPairList.forEach at h
  simp only [bind, Except.bind, pure, Except.pure] at h
  split at h
  · cases h
  next ws hws =>
  obtain ⟨hws', hall⟩ := mapM_ok (g := fun e : ℕ × ℕ => recordOf
    (fun i j => foldedImage img (R i - R j)) (e.1, l.nbr e.2)) (fun e y hy => by
      rw [hcand] at hy
      cases hf : img.fold (R e.1 - R (l.nbr e.2)) with
      | error _ => simp [hf, Except.map] at hy
      | ok d =>
        simp only [hf, Except.map, Except.ok.injEq] at hy
        rw [← hy, foldedImage_eq hf]
        rfl) hws
  constructor
  · intro i j hij hj ht
    have hmem : (i, j) ∈ (entries l.rows l.n).map fun e => (e.1, l.nbr e.2) := by
      rw [hl.entries_map, mem_listedPairs]
      exact ⟨hij, hj, ht⟩
    obtain ⟨e, he, hej⟩ := List.mem_map.mp hmem
    obtain ⟨rfl, rfl⟩ := Prod.mk.inj hej
    have := hall e he
    rw [hcand] at this
    cases hf : img.fold (R e.1 - R (l.nbr e.2)) with
    | error _ => simp [hf, Except.map] at this
    | ok d => rw [← foldedImage_eq hf]
  · rw [← Except.ok.inj h, hws', ← hl.entries_map, List.map_map]
    rfl

theorem filter_eq_self_map {α β : Type} {f g : α → β} {q : β → Bool} {xs : List α}
    (h : ∀ x ∈ xs, q (f x) = true ∧ f x = g x) : (xs.map f).filter q = xs.map g := by
  rw [List.filter_eq_self.mpr]
  · exact List.map_congr_left fun x hx => (h x hx).2
  · intro y hy
    obtain ⟨x, hx, rfl⟩ := List.mem_map.mp hy
    exact (h x hx).1

variable [IsStrictOrderedRing K] [OutwardRoot.Lawful K]

/-- A general cell is scanned afresh in every call. -/
theorem general_calls (hgen : isGeneral box opt = true) {law : PairLaw K σ} {F : ℕ → Vec3 K}
    {obs : σ} {s : Sums K σ} {stored : Option (CachedPairList K)}
    (h : accumulateWith none R n box opt law F obs = .ok (s, stored)) : ∃ v t,
      NearestCalls R n box opt v t ∧
        s = summed law F obs ((listedPairs n t).map (recordOf v)) := by
  simp only [accumulateWith, bind, Except.bind, pure, Except.pure] at h
  split at h
  · cases h
  next l hl =>
  split at h
  · cases h
  next sums hsums =>
  obtain ⟨rfl, -⟩ := Prod.mk.inj (Except.ok.inj h)
  obtain ⟨img, himg, hfold, hlists, hmode, hlimg, hopt⟩ := buildForEval_general hgen hl
  rw [accumulate_eq] at hsums
  cases hvs : l.forEach R with
  | error _ => simp [hvs, Except.map] at hsums
  | ok vs =>
    simp only [hvs, Except.map, Except.ok.injEq] at hsums
    obtain ⟨hback, hvs'⟩ := forEach_general hlists hmode hlimg hvs
    have hforth : ∀ i j, i < j → j < n →
        IsNearest box opt.periodic (R i - R j) (-foldedImage img (R j - R i)) := by
      intro i j hij hj
      have := (fold_isNearest himg (hfold i j hij hj)).neg
      rwa [neg_sub] at this
    have hsame : ∀ i j, i < j → j < n → scannedWithin img R opt i j = true →
        sqNorm (foldedImage img (R i - R j)) = sqNorm (foldedImage img (R j - R i)) := by
      intro i j hij hj ht
      rw [← sqNorm_neg (foldedImage img (R j - R i)), sqNorm_eq_normSq, sqNorm_eq_normSq]
      exact (fold_isNearest himg (hback i j hij hj ht)).normSq_eq (hforth i j hij hj)
    refine ⟨fun i j => if scannedWithin img R opt i j then foldedImage img (R i - R j)
      else -foldedImage img (R j - R i), scannedWithin img R opt, ⟨?_, ?_, ?_⟩, ?_⟩
    · intro i j hij hj
      split
      · next ht => exact fold_isNearest himg (hback i j hij hj ht)
      · exact hforth i j hij hj
    · intro i j hij hj ht
      rw [if_pos ht, hsame i j hij hj ht]
      simpa only [scannedWithin, decide_eq_true_eq] using ht
    · intro i j hij hj hlt
      by_contra hn
      rw [if_neg hn, sqNorm_neg] at hlt
      exact hn (by simpa only [scannedWithin, decide_eq_true_eq] using hlt.le)
    · rw [← hsums, hvs', hopt]
      congr 1
      apply filter_eq_self_map
      rintro ⟨i, j⟩ hp
      obtain ⟨hij, hj, ht⟩ := mem_listedPairs.mp hp
      constructor
      · have hin := hsame i j hij hj ht
        simp only [scannedWithin, decide_eq_true_eq] at ht
        exact decide_eq_true (hin.le.trans ht)
      · simp only [recordOf, if_pos ht]

end General

section Orthorhombic
variable [IsStrictOrderedRing K]

omit [FloorRing K] [OutwardRoot K] [IsStrictOrderedRing K] in
theorem eq_diagonal_of_orthorhombic (h : orthorhombic box = true) :
    box = Matrix.diagonal (foldWidth box) := by
  simp only [orthorhombic, decide_eq_true_eq] at h
  obtain ⟨h01, h02, h10, h12, h20, h21⟩ := h
  ext r c
  fin_cases r <;> fin_cases c <;> simp [foldWidth, *]

omit [OutwardRoot K] in
/-- With no zero width, the fold of an orthorhombic cell finds nearest images of the cell. -/
theorem foldDiag_isNearest_cell (opt : Options K) (h : orthorhombic box = true)
    (hw : ∀ k, box k k ≠ 0) (d : Vec3 K) :
    IsNearest box opt.periodic d (foldDiag (foldWidth box) (foldInv box opt) d) := by
  have hn := foldDiag_isNearest box opt d
  rw [← eq_diagonal_of_orthorhombic h] at hn
  have haxes : foldAxes box opt = opt.periodic := by
    funext k
    simp [foldAxes, hw k]
  rwa [haxes] at hn

/-- An orthorhombic cell may reuse a capture, which leaves out pairs at the cutoff only. -/
theorem orthorhombic_calls {hit : Option (Slot K)} (hhit : Served hit R n box opt)
    (hbox : orthorhombic box = true) (hw : ∀ k, box k k ≠ 0) (hcut : 0 ≤ opt.cutoff)
    (hskin : 0 < opt.skin) (law : PairLaw K σ) (F : ℕ → Vec3 K) (obs : σ) : ∃ v t stored,
      NearestCalls R n box opt v t ∧ accumulateWith hit R n box opt law F obs =
        .ok (summed law F obs ((listedPairs n t).map (recordOf v)), stored) := by
  obtain ⟨calls, stored, hrun, hcalls⟩ := accumulateWith_eq hhit (not_general_of_orthorhombic hbox)
    hcut hskin law F obs
  have near := fun i j => foldDiag_isNearest_cell opt hbox hw (R i - R j)
  -- records of the pairs of `t` within the cutoff
  have records : ∀ t : ℕ → ℕ → Bool, visitsOf R n box opt t =
      (listedPairs n fun i j => t i j && decide (foldedR2 R box opt i j ≤
        opt.cutoff * opt.cutoff)).map (recordOf fun i j =>
          foldDiag (foldWidth box) (foldInv box opt) (R i - R j)) := by
    intro t
    unfold visitsOf listedPairs
    rw [List.filter_map, List.filter_filter]
    congr 1
    apply List.filter_congr
    intro p _
    simp only [Function.comp_apply, Bool.and_comm (t p.1 p.2)]
    rfl
  have build : ∀ t : ℕ → ℕ → Bool, (∀ i j, i < j → j < n →
      foldedR2 R box opt i j < opt.cutoff * opt.cutoff → t i j = true) →
      NearestCalls R n box opt (fun i j => foldDiag (foldWidth box) (foldInv box opt) (R i - R j))
        fun i j => t i j && decide (foldedR2 R box opt i j ≤ opt.cutoff * opt.cutoff) := by
    intro t ht
    refine ⟨fun i j _ _ => near i j, fun i j _ _ h => ?_, fun i j hij hj h => ?_⟩
    · rw [Bool.and_eq_true, decide_eq_true_iff] at h
      exact h.2
    · rw [Bool.and_eq_true, decide_eq_true_iff]
      exact ⟨ht i j hij hj h, le_of_lt h⟩
  rcases hcalls with ⟨-, rfl⟩ | ⟨slot, -, -, rfl, hslot⟩
  · rw [bruteForceCalls_eq, records] at hrun
    exact ⟨_, _, stored, build (fun _ _ => true) fun _ _ _ _ _ => rfl, hrun⟩
  · rw [records] at hrun
    refine ⟨_, _, stored, build _ fun i j hij hj hlt => ?_, hrun⟩
    rcases hslot with hall | hw
    · exact hall i j hij hj
    · by_contra hn
      obtain ⟨-, hat⟩ := missed_at_boundary hw hcut hskin hij hj (by simpa using hn) hlt.le
      exact hlt.ne hat

end Orthorhombic

section Calls
variable [IsStrictOrderedRing K] [OutwardRoot.Lawful K]

omit [OutwardRoot.Lawful K] in
theorem lookup_general {st : PoolState K} (hst : Reachable st) (hgen : isGeneral box opt = true) :
    (lookup st.slots R n box opt).1 = none := by
  cases hhit : (lookup st.slots R n box opt).1 with
  | none => rfl
  | some slot =>
    obtain ⟨hfrom, hv⟩ := hst.served R n box opt slot hhit
    obtain ⟨-, -, hb, -⟩ := valid_facts hv
    have hortho : orthorhombic slot.list.boxref = true := by
      cases hfrom with
      | phantom _ hmic => exact orthorhombic_of_isMic hmic
      | captured R₀ n₀ box₀ opt₀ hmic h₀ =>
        obtain ⟨l, hl, hs, -⟩ := rebuild_eq R₀ n₀
          (not_general_of_orthorhombic (orthorhombic_of_isMic hmic))
        rw [h₀] at hl
        cases hl
        rw [hs.boxref_eq]
        exact orthorhombic_of_isMic hmic
    rw [hb] at hortho
    rw [not_general_of_orthorhombic hortho] at hgen
    cases hgen

/-- Whatever the pool holds, a call that returns on a nonsingular periodic cell sums records
of nearest images, with every pair below the cutoff and none above. -/
theorem accumulate_nearest {st : PoolState K} (hst : Reachable st) (hdet : box.det ≠ 0)
    (hper : ∀ k, opt.periodic k = true) (hcut : 0 ≤ opt.cutoff) (hskin : 0 < opt.skin)
    {law : PairLaw K σ} {F : ℕ → Vec3 K} {obs : σ} {s : Sums K σ}
    {stored : Option (CachedPairList K)}
    (h : accumulateWith (lookup st.slots R n box opt).1 R n box opt law F obs = .ok (s, stored)) :
    ∃ v t, NearestCalls R n box opt v t ∧
      s = summed law F obs ((listedPairs n t).map (recordOf v)) := by
  cases hbox : orthorhombic box with
  | false =>
    have hgen : isGeneral box opt = true := by simp [isGeneral, hbox, hper]
    rw [lookup_general hst hgen] at h
    exact general_calls hgen h
  | true =>
    have hw : ∀ k, box k k ≠ 0 := by
      intro k hk
      apply hdet
      rw [eq_diagonal_of_orthorhombic hbox, Matrix.det_diagonal]
      exact Finset.prod_eq_zero (Finset.mem_univ k) hk
    obtain ⟨v, t, stored', hcalls, hrun⟩ := orthorhombic_calls (hst.served R n box opt) hbox hw
      hcut hskin law F obs
    rw [hrun] at h
    obtain ⟨rfl, -⟩ := Prod.mk.inj (Except.ok.inj h)
    exact ⟨v, t, hcalls, rfl⟩

end Calls
end Rgpot.Nlist
