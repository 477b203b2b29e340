import Rgpot.Nlist.Builds

/-! The two kinds of fresh list: one evaluation at the cutoff, or a capture for reuse. -/
namespace Rgpot.Nlist
open Rounding CountingSort Lattice

theorem length_ascendingPairs (n : ℕ) : (ascendingPairs n).length = n * (n - 1) / 2 := by
  have hsum : (ascendingPairs n).length = ∑ i ∈ Finset.range n, (n - 1 - i) := by
    rw [ascendingPairs, List.length_flatMap, Finset.sum_range]
    simp only [List.length_map, List.length_range']
    rw [← List.sum_ofFn, List.ofFn_eq_map, ← List.map_coe_finRange_eq_range, List.map_map]
    congr 1
    apply List.map_congr_left
    intro i _
    simp only [Function.comp_apply]
    omega
  rw [hsum, Finset.sum_range_reflect (fun i => i) n, Finset.sum_range_id]

/-- A list of all pairs lists every pair. -/
theorem listedPairs_length_eq {n : ℕ} {t : ℕ → ℕ → Bool} :
    (listedPairs n t).length = n * (n - 1) / 2 ↔ ∀ i j, i < j → j < n → t i j = true := by
  rw [← length_ascendingPairs, listedPairs, List.length_filter_eq_length_iff]
  constructor
  · exact fun h i j hij hj => h (i, j) (mem_ascendingPairs.mpr ⟨hij, hj⟩)
  · rintro h ⟨i, j⟩ hp
    obtain ⟨hij, hj⟩ := mem_ascendingPairs.mp hp
    exact h i j hij hj

variable {K : Type} [Field K] [LinearOrder K] [FloorRing K] [OutwardRoot K]
variable {R R₀ : Positions K} {n : ℕ} {box : Box K} {opt : Options K} {l : CachedPairList K}

section Finish
variable {s : BoxSetup K} {pairs : List (ℕ × ℕ)} {rowsSorted codes : Bool}

omit [OutwardRoot K] in
theorem finishRebuild_stamped (hs : s.mic = isMic n box opt) :
    Stamped (finishRebuild s pairs R n box opt rowsSorted codes) R n box opt := by
  obtain ⟨code, shift, fold, h⟩ := finishRebuild_frame s pairs R n box opt rowsSorted codes
  rw [h]
  exact ⟨rfl, rfl, rfl, rfl, rfl, hs, rfl⟩

omit [OutwardRoot K] in
theorem finishRebuild_phantom :
    (finishRebuild s pairs R n box opt rowsSorted codes).phantom = false := by
  obtain ⟨code, shift, fold, h⟩ := finishRebuild_frame s pairs R n box opt rowsSorted codes
  rw [h]
  rfl

omit [OutwardRoot K] in
theorem finishRebuild_complete :
    (finishRebuild s pairs R n box opt rowsSorted codes).complete =
      (s.mic && pairs.length == n * (n - 1) / 2) := by
  obtain ⟨code, shift, fold, h⟩ := finishRebuild_frame s pairs R n box opt rowsSorted codes
  rw [h]
  rfl

omit [OutwardRoot K] in
/-- Without codes the loops round, or no axis is folded. -/
theorem finishRebuild_exact (hs : s.general = false)
    (hc : (finishRebuild s pairs R n box opt rowsSorted codes).fold ≠ .coded) :
    (finishRebuild s pairs R n box opt rowsSorted codes).fold = .round ∨
      (finishRebuild s pairs R n box opt rowsSorted codes).fold = .none ∧
        ∀ k, (finishRebuild s pairs R n box opt rowsSorted codes).micInv k = 0 := by
  unfold finishRebuild at hc ⊢
  simp only [hs, Bool.false_eq_true, if_false] at hc ⊢
  cases codes with
  | false =>
    simp only [Bool.false_eq_true, if_false] at hc ⊢
    split
    · exact Or.inl rfl
    · next h =>
      push Not at h
      exact Or.inr ⟨rfl, h⟩
  | true =>
    simp only [if_true] at hc ⊢
    unfold buildImageCodes at hc ⊢
    simp only at hc ⊢
    split at hc
    · next h =>
      rw [if_pos h]
      exact Or.inr ⟨rfl, h⟩
    next h0 =>
    rw [if_neg h0]
    left
    split_ifs at hc ⊢
    all_goals first | rfl | exact absurd rfl hc

end Finish

section Scan
variable {rl vc : K} {lc : ListCutoff K} {codes : Bool}

omit [OutwardRoot K] in
theorem scanList_stamped (R : Positions K) (n : ℕ) (box : Box K) (opt : Options K) (rl : K)
    (lc : ListCutoff K) (vc : K) (codes : Bool) :
    Stamped (scanList R n box opt rl lc vc codes) R n box opt :=
  finishRebuild_stamped rfl

omit [OutwardRoot K] in
theorem scanList_exact (hc : (scanList R n box opt rl lc vc codes).fold ≠ .coded) :
    (scanList R n box opt rl lc vc codes).fold = .round ∨
      (scanList R n box opt rl lc vc codes).fold = .none ∧
        ∀ k, (scanList R n box opt rl lc vc codes).micInv k = 0 :=
  finishRebuild_exact rfl hc

omit [OutwardRoot K] in
theorem scanList_not_coded : (scanList R n box opt rl lc vc false).fold ≠ .coded := by
  unfold scanList finishRebuild
  simp only [show (micSetup n box opt).general = false from rfl, Bool.false_eq_true, if_false]
  split <;> simp

omit [OutwardRoot K] in
theorem scanList_codes : scanList R n box opt rl lc vc true =
    buildImageCodes (finishRows (micSetup n box opt) (scanPairs R n box opt rl lc vc) R n box opt
      (!(gridFor (micSetup n box opt) R n box opt rl).isSome)) := rfl

end Scan

variable [IsStrictOrderedRing K]

/-- A list for one evaluation holds the pairs within the cutoff. -/
theorem buildForEval_eq (hb : isGeneral box opt = false) : ∃ l, buildForEval R n box opt = .ok l ∧
    Stamped l R n box opt ∧ l.forEach R = .ok (bruteForceCalls R n box opt) := by
  have hlc : ∀ r2, (ListCutoff.nextafter (opt.cutoff * opt.cutoff)).admits r2 = true →
      r2 ≤ opt.cutoff * opt.cutoff := fun r2 h => by simpa [ListCutoff.admits] using h
  refine ⟨_, buildForEval_eq_scan hb, scanList_stamped .., ?_⟩
  rw [forEach_of_exact (scanList_lists hlc false) (scanList_stamped ..)
    (scanList_exact scanList_not_coded) R, bruteForceCalls_eq]
  refine congrArg Except.ok (visitsOf_eq_iff.mpr fun i j _ _ hr => ?_)
  simpa [listedAt, ListCutoff.admits] using hr

/-- The pairs within the list cutoff of a capture. -/
def capturedAt (R₀ : Positions K) (box : Box K) (opt : Options K) : ℕ → ℕ → Bool :=
  listedAt R₀ box opt (.below ((opt.cutoff + opt.skin) * (opt.cutoff + opt.skin)))

omit [OutwardRoot K] [IsStrictOrderedRing K] in
/-- Codes are only used on an incomplete list, with the list cutoff below half of each width. -/
theorem reach_of_coded {t : ℕ → ℕ → Bool} {l₀ : CachedPairList K}
    (hl : Lists (buildImageCodes l₀) n t) (hs : Stamped (buildImageCodes l₀) R₀ n box opt)
    (hcoded : (buildImageCodes l₀).fold = .coded) : (buildImageCodes l₀).complete = false ∧
      ∀ k, foldInv box opt k ≠ 0 → opt.cutoff + opt.skin < 1 / 2 * box k k := by
  obtain ⟨code, shift, fold, hframe⟩ := buildImageCodes_frame l₀
  have hl₀ : Lists l₀ n t := by
    rw [hframe] at hl
    exact ⟨hl.n_eq, hl.row_eq, hl.mono⟩
  obtain ⟨hcomp, hreach, -⟩ := buildImageCodes_coded hl₀ hcoded
  have hstamp := hs
  rw [hframe] at hstamp
  have hinv : l₀.micInv = foldInv box opt := hstamp.micInv_eq
  have hopt : l₀.opt = opt := hstamp.opt_eq
  have hbox : l₀.boxref = box := hstamp.boxref_eq
  rw [hinv, hopt, hbox] at hreach
  refine ⟨?_, hreach⟩
  rw [hframe]
  exact hcomp

/-- Codes stand for the images of now while no atom left its half skin. -/
theorem forEach_of_codes {t : ℕ → ℕ → Bool} {l₀ : CachedPairList K}
    (hl : Lists (buildImageCodes l₀) n t) (hs : Stamped (buildImageCodes l₀) R₀ n box opt)
    (hcoded : (buildImageCodes l₀).fold = .coded)
    (hR : (buildImageCodes l₀).complete = true ∨ Within R R₀ n opt) (hc : 0 ≤ opt.cutoff)
    (hsk : 0 ≤ opt.skin) : (buildImageCodes l₀).forEach R = .ok (visitsOf R n box opt t) := by
  obtain ⟨hcomp, hreach⟩ := reach_of_coded hl hs hcoded
  have hwithin : Within R R₀ n opt := by
    rcases hR with hR | hR
    · exact absurd hR (by simp [hcomp])
    · exact hR
  rw [forEach_of_coded hl hs hcoded R]
  refine congrArg Except.ok (filter_map_congr ?_)
  rintro ⟨i, j⟩ hp hr
  obtain ⟨hij, hj, -⟩ := mem_listedPairs.mp hp
  refine coded_eq_folded hwithin hc hsk (hij.trans hj) hj hreach ?_
  simpa only [decide_eq_true_eq] using hr

/-- A captured list: its stamp, when it is complete, and what it evaluates later. -/
theorem rebuild_eq (R₀ : Positions K) (n : ℕ) (hb : isGeneral box opt = false) :
    ∃ l, rebuild R₀ n box opt = .ok l ∧ Stamped l R₀ n box opt ∧ l.phantom = false ∧
    (l.complete = true → ∀ i j, i < j → j < n → capturedAt R₀ box opt i j = true) ∧
    ∀ R, l.complete = true ∨ Within R R₀ n opt → 0 ≤ opt.cutoff → 0 ≤ opt.skin →
      l.forEach R = .ok (visitsOf R n box opt (capturedAt R₀ box opt)) := by
  have hlc : ∀ r2, (ListCutoff.below ((opt.cutoff + opt.skin) * (opt.cutoff + opt.skin))).admits
      r2 = true → r2 ≤ (opt.cutoff + opt.skin) * (opt.cutoff + opt.skin) := fun r2 h => by
    simp only [ListCutoff.admits, decide_eq_true_eq] at h
    exact h.le
  have hlists : Lists (scanList R₀ n box opt (opt.cutoff + opt.skin)
      (.below ((opt.cutoff + opt.skin) * (opt.cutoff + opt.skin))) (opt.cutoff * opt.cutoff)
      true) n (capturedAt R₀ box opt) := scanList_lists hlc true
  refine ⟨_, rebuild_eq_scan hb, scanList_stamped .., finishRebuild_phantom, ?_, ?_⟩
  · intro hcomp
    rw [scanList, finishRebuild_complete, Bool.and_eq_true, beq_iff_eq,
      (scanPairs_perm hlc).length_eq, listedPairs_length_eq] at hcomp
    exact hcomp.2
  · intro R hR hc hsk
    by_cases hcoded : (scanList R₀ n box opt (opt.cutoff + opt.skin)
        (.below ((opt.cutoff + opt.skin) * (opt.cutoff + opt.skin))) (opt.cutoff * opt.cutoff)
        true).fold = .coded
    · have hstamp := scanList_stamped R₀ n box opt (opt.cutoff + opt.skin)
        (.below ((opt.cutoff + opt.skin) * (opt.cutoff + opt.skin))) (opt.cutoff * opt.cutoff) true
      rw [scanList_codes] at hcoded hlists hR hstamp ⊢
      exact forEach_of_codes hlists hstamp hcoded hR hc hsk
    · exact forEach_of_exact hlists (scanList_stamped ..) (scanList_exact hcoded) R

omit [OutwardRoot K] in
/-- A pair that a reused capture misses sat at exactly the list cutoff and is at exactly the
cutoff now. -/
theorem missed_at_boundary (hw : Within R R₀ n opt) (hc : 0 ≤ opt.cutoff) (hs : 0 < opt.skin)
    {i j : ℕ} (hij : i < j) (hj : j < n) (ht : capturedAt R₀ box opt i j = false)
    (hr : foldedR2 R box opt i j ≤ opt.cutoff * opt.cutoff) :
    foldedR2 R₀ box opt i j = (opt.cutoff + opt.skin) * (opt.cutoff + opt.skin) ∧
      foldedR2 R box opt i j = opt.cutoff * opt.cutoff := by
  simp only [capturedAt, listedAt, ListCutoff.admits, decide_eq_false_iff_not, not_lt] at ht
  have hle := hw.foldedR2_le hc hs.le (hij.trans hj) hj hr
  refine ⟨le_antisymm hle ht, le_antisymm hr ?_⟩
  by_contra hlt
  exact ht.not_gt (hw.foldedR2_lt hc hs (hij.trans hj) hj (not_le.mp hlt))

omit [OutwardRoot K] in
/-- A reused capture evaluates the brute-force records unless it misses such a pair. -/
theorem captured_calls_iff (hw : (∀ i j, i < j → j < n → capturedAt R₀ box opt i j = true) ∨
    Within R R₀ n opt) (hc : 0 ≤ opt.cutoff) (hs : 0 < opt.skin) :
    visitsOf R n box opt (capturedAt R₀ box opt) = bruteForceCalls R n box opt ↔
      ¬ ∃ i j, i < j ∧ j < n ∧
        foldedR2 R₀ box opt i j = (opt.cutoff + opt.skin) * (opt.cutoff + opt.skin) ∧
        foldedR2 R box opt i j = opt.cutoff * opt.cutoff := by
  rw [bruteForceCalls_eq, visitsOf_eq_iff]
  constructor
  · rintro h ⟨i, j, hij, hj, hfar, hr⟩
    have := h i j hij hj hr.le
    simp only [capturedAt, listedAt, ListCutoff.admits, decide_eq_true_eq, hfar] at this
    exact lt_irrefl _ this
  · intro h i j hij hj hr
    rcases hw with hall | hw
    · exact hall i j hij hj
    · by_contra hn
      obtain ⟨hfar, hat⟩ := missed_at_boundary hw hc hs hij hj (by simpa using hn) hr
      exact h ⟨i, j, hij, hj, hfar, hat⟩

omit [IsStrictOrderedRing K] in
/-- Image codes belong to orthorhombic boxes. -/
theorem not_general_of_coded (h : rebuild R₀ n box opt = .ok l) (hc : l.fold = .coded) :
    isGeneral box opt = false := by
  by_contra hb
  have hgen : isGeneral box opt = true := by simpa using hb
  unfold rebuild rebuildFused setup at h
  simp only [hgen, if_true, bind, Except.bind, pure, Except.pure] at h
  cases himg : MinimumImage.make box opt.periodic with
  | error _ =>
    rw [himg] at h
    cases h
  | ok img =>
    simp only [himg] at h
    split at h
    · cases h
    · cases h
      simp [finishRebuild] at hc

/-- A captured list in coded mode is what `buildImageCodes` left. -/
theorem rebuild_coded (h : rebuild R₀ n box opt = .ok l) (hc : l.fold = .coded) :
    Lists l n (capturedAt R₀ box opt) ∧ Stamped l R₀ n box opt ∧ ∃ l₀, l = buildImageCodes l₀ := by
  rw [rebuild_eq_scan (not_general_of_coded h hc)] at h
  cases h
  refine ⟨?_, scanList_stamped .., _, scanList_codes⟩
  apply scanList_lists
  intro r2 hr
  simp only [ListCutoff.admits, decide_eq_true_eq] at hr
  exact hr.le

/-- The same list with the per-call fold. -/
def CachedPairList.rounding (l : CachedPairList K) : CachedPairList K := { l with fold := .round }

/-- While no atom has left its half skin, a captured list visits the same pairs with the same vectors
by the images it stored and by rounding the positions of now. -/
theorem coded_eq_rounding {visits : List (Visit K)}
    (h : rebuildFused R₀ n box opt = .ok (l, visits)) (hcoded : l.fold = .coded)
    (hc : 0 ≤ opt.cutoff) (hsk : 0 ≤ opt.skin)
    (hmoved : ∀ a < n, sqNorm (R a - R₀ a) ≤ opt.skin / 2 * (opt.skin / 2)) :
    (∀ i p, (i, p) ∈ entries l.rows n → ∃ d d', l.apply R i p = .ok d ∧
      l.rounding.apply R i p = .ok d' ∧
        (sqNorm d ≤ opt.cutoff * opt.cutoff ↔ sqNorm d' ≤ opt.cutoff * opt.cutoff) ∧
        (sqNorm d ≤ opt.cutoff * opt.cutoff → d = d')) ∧
      l.forEach R = l.rounding.forEach R ∧
      ∀ {σ : Type} (law : PairLaw K σ) (F : ℕ → Vec3 K) (obs : σ),
        l.accumulate law R F obs = l.rounding.accumulate law R F obs := by
  have hrebuild : rebuild R₀ n box opt = .ok l := by
    rw [rebuild, h]
    rfl
  obtain ⟨hl, hs, l₀, rfl⟩ := rebuild_coded hrebuild hcoded
  obtain ⟨-, hreach⟩ := reach_of_coded hl hs hcoded
  have hwithin : Within R R₀ n opt := by
    intro a ha
    have := hmoved a ha
    linarith
  have hround : (buildImageCodes l₀).rounding.forEach R =
      .ok (visitsOf R n box opt (capturedAt R₀ box opt)) :=
    forEach_of_exact (l := (buildImageCodes l₀).rounding) ⟨hl.n_eq, hl.row_eq, hl.mono⟩
      ⟨hs.Rref_eq, hs.boxref_eq, hs.micInv_eq, hs.opt_eq, hs.n_eq, hs.mic_eq, hs.built_eq⟩
      (Or.inl rfl) R
  have hforEach : (buildImageCodes l₀).forEach R = (buildImageCodes l₀).rounding.forEach R := by
    rw [hround]
    exact forEach_of_codes hl hs hcoded (Or.inr hwithin) hc hsk
  refine ⟨?_, hforEach, ?_⟩
  · intro i p he
    rw [← hs.n_eq] at he
    obtain ⟨hij, hjn⟩ := hl.entry_lt he
    have hvisit := coded_eq_folded hwithin hc hsk (hij.trans hjn) hjn hreach
    have hcodes := apply_of_coded hl hs hcoded R he
    have hfold : (buildImageCodes l₀).rounding.apply R i p =
        .ok (pairVisit R box opt (i, (buildImageCodes l₀).nbr p)).d := by
      simp only [CachedPairList.rounding, CachedPairList.apply, hs.boxref_eq, hs.micInv_eq]
      rfl
    refine ⟨_, _, hcodes, hfold, ⟨fun hr => ?_, fun hr => ?_⟩, fun hr => ?_⟩
    · rw [← hvisit (Or.inl hr)]
      exact hr
    · rw [hvisit (Or.inr hr)]
      exact hr
    · rw [hvisit (Or.inl hr)]
  · intro σ law F obs
    rw [accumulate_eq, accumulate_eq, hforEach]

def cubicBox : Box ℚ := !![10, 0, 0; 0, 10, 0; 0, 0, 10]

def unitOptions : Options ℚ := ⟨1, 1, fun _ => true⟩

/-- A pair across the boundary, its second atom at `10 - x`, and an atom out of reach. -/
def acrossBoundary (x : ℚ) : Positions ℚ := fun a =>
  ![if a = 0 then 0 else if a = 1 then 10 - x else 5, 0, 0]

theorem coded_eq_rounding_across : ∃ (l : CachedPairList ℚ) (visits : List (Visit ℚ)),
    rebuildFused (acrossBoundary 1) 3 cubicBox unitOptions = .ok (l, visits) ∧ l.fold = .coded ∧
      l.forEach (acrossBoundary (1 / 2)) = l.rounding.forEach (acrossBoundary (1 / 2)) := by
  have hfold : (rebuildFused (acrossBoundary 1) 3 cubicBox unitOptions).toOption.map
      (fun r => r.1.fold) = some .coded := by decide +kernel
  cases h : rebuildFused (acrossBoundary 1) 3 cubicBox unitOptions with
  | error _ =>
    rw [h] at hfold
    cases hfold
  | ok r =>
    obtain ⟨l, visits⟩ := r
    rw [h] at hfold
    have hcoded : l.fold = .coded := by simpa [Except.toOption] using hfold
    exact ⟨l, visits, rfl, hcoded, (coded_eq_rounding h hcoded (by decide +kernel)
      (by decide +kernel) (by decide +kernel)).2.1⟩

end Rgpot.Nlist
