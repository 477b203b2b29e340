import Rgpot.Nlist.Builds

/-! Boxes that are admitted past the atom cap, and when their builds find no grid. -/
namespace Rgpot.Nlist
open Rounding CountingSort

section Occupancy
variable {nc : Fin 3 → ℕ} {wrap : Fin 3 → Bool} {count : ℕ → ℕ} {n ncells : ℕ}

/-- The pair tests of one cell, in itself and against its half stencil. -/
def testsOf (nc : Fin 3 → ℕ) (wrap : Fin 3 → Bool) (count : ℕ → ℕ) (c : Fin 3 → ℕ) : ℚ :=
  let here : ℚ := count (linearIndex nc c + 1)
  if here = 0 then 0 else 1 / 2 * here * (here - 1) + (kHalfStencil.map fun o =>
    match neighbour nc wrap c o with
    | none => 0
    | some d => here * count (d + 1)).sum

theorem pays_iff : pays nc wrap count n ncells ↔
    14 * (ncells : ℚ) + ((cells nc).map (testsOf nc wrap count)).sum <
      1 / 2 * (1 / 2 * n * (n - 1)) := Iff.rfl

/-- A cell tests at least its own pairs. -/
theorem own_pairs_le_testsOf (nc : Fin 3 → ℕ) (wrap : Fin 3 → Bool) (count : ℕ → ℕ)
    (c : Fin 3 → ℕ) : 1 / 2 * (count (linearIndex nc c + 1) : ℚ) *
      (count (linearIndex nc c + 1) - 1) ≤ testsOf nc wrap count c := by
  have hstencil : 0 ≤ (kHalfStencil.map fun o =>
      match neighbour nc wrap c o with
      | none => (0 : ℚ)
      | some d => (count (linearIndex nc c + 1) : ℚ) * count (d + 1)).sum := by
    apply List.sum_nonneg
    intro x hx
    obtain ⟨o, -, rfl⟩ := List.mem_map.mp hx
    cases neighbour nc wrap c o with
    | none => exact le_rfl
    | some d => positivity
  unfold testsOf
  by_cases hzero : (count (linearIndex nc c + 1) : ℚ) = 0
  · simp [hzero]
  · simp only [if_neg hzero]
    exact le_add_of_nonneg_right hstencil

theorem own_pairs_nonneg (k : ℕ) : 0 ≤ 1 / 2 * (k : ℚ) * (k - 1) := by
  rcases Nat.eq_zero_or_pos k with rfl | hk
  · simp
  · have hone : (1 : ℚ) ≤ k := by exact_mod_cast hk
    have : (0 : ℚ) ≤ k - 1 := by linarith
    positivity

/-- With every atom in one cell the grid saves no pair test. -/
theorem not_pays_of_crowded {c : Fin 3 → ℕ} (hc : c ∈ cells nc)
    (hcount : count (linearIndex nc c + 1) = n) : ¬ pays nc wrap count n ncells := by
  have hnonneg : ∀ d, 0 ≤ testsOf nc wrap count d := fun d =>
    (own_pairs_nonneg _).trans (own_pairs_le_testsOf nc wrap count d)
  have hone : testsOf nc wrap count c ≤ ((cells nc).map (testsOf nc wrap count)).sum := by
    apply List.single_le_sum
    · intro x hx
      obtain ⟨d, -, rfl⟩ := List.mem_map.mp hx
      exact hnonneg d
    · exact List.mem_map_of_mem hc
  have hown := own_pairs_le_testsOf nc wrap count c
  have hpairs := own_pairs_nonneg n
  have hcells : (0 : ℚ) ≤ 14 * ncells := by positivity
  rw [hcount] at hown
  rw [pays_iff, not_lt]
  linarith

end Occupancy

section Radius
variable {K : Type} [Field K] [LinearOrder K] [FloorRing K]
variable {R : Positions K} {n : ℕ} {box : Box K} {opt : Options K} {rl : K}

/-- Whether a grid of cells no narrower than `rl` pays for these atoms. -/
def gridPays (R : Positions K) (n : ℕ) (box : Box K) (opt : Options K) (rl : K) : Prop :=
  let w := foldWidth box
  let inv := foldInv box opt
  let nc := gridCells R n w inv rl
  pays nc (fun k => inv k ≠ 0)
    (countKeys ((List.range n).map fun a => linearIndex nc (cellOf R n w inv rl a))) n
    (nc 0 * nc 1 * nc 2)

/-- The tests of `CellGrid::build`, in their order. -/
theorem build_passes_iff {w inv : Vec3 K} : (CellGrid.build R n w inv rl).isSome = true ↔
    (0 < rl ∧ 2 ≤ n) ∧ (∀ k, inv k ≠ 0 → 3 ≤ gridCells R n w inv rl k) ∧
    (kMinCellsForGrid ≤ gridCells R n w inv rl 0 * gridCells R n w inv rl 1 * gridCells R n w inv rl 2 ∧
      gridCells R n w inv rl 0 * gridCells R n w inv rl 1 * gridCells R n w inv rl 2 ≤ 8 * n + 64) ∧
    pays (gridCells R n w inv rl) (fun k => inv k ≠ 0)
      (countKeys ((List.range n).map fun a =>
        linearIndex (gridCells R n w inv rl) (cellOf R n w inv rl a))) n
      (gridCells R n w inv rl 0 * gridCells R n w inv rl 1 * gridCells R n w inv rl 2) := by
  unfold CellGrid.build
  simp only [List.map_map]
  split
  next hsmall =>
    refine iff_of_false Bool.false_ne_true ?_
    rintro ⟨⟨hrl, hn⟩, -⟩
    exact hsmall.elim (fun hle => hle hrl) (not_lt.mpr hn)
  next hsmall =>
  split
  next hnarrow =>
    obtain ⟨k, hk, hlt⟩ := hnarrow
    refine iff_of_false Bool.false_ne_true fun h => ?_
    exact absurd (h.2.1 k (of_decide_eq_true hk)) (not_le.mpr hlt)
  next hnarrow =>
  split
  next hcount => exact iff_of_false Bool.false_ne_true fun h => by omega
  next hcount =>
  split
  next hpays => exact iff_of_false Bool.false_ne_true fun h => hpays h.2.2.2
  next hpays =>
  rw [not_not] at hpays
  push Not at hnarrow hcount hsmall
  exact iff_of_true rfl ⟨⟨hsmall.1, hsmall.2⟩, fun k hk => hnarrow k (decide_eq_true hk), hcount, hpays⟩

theorem build_of_one_cell {w inv : Vec3 K} {c : Fin 3 → ℕ} [IsStrictOrderedRing K]
    (h : ∀ a < n, cellOf R n w inv rl a = c) : CellGrid.build R n w inv rl = none := by
  by_contra hsome
  obtain ⟨⟨-, hn⟩, -, -, hpays⟩ := build_passes_iff.mp (Option.isSome_iff_ne_none.mpr hsome)
  have h0 : cellOf R n w inv rl 0 = c := h 0 (by omega)
  have hc : c ∈ cells (gridCells R n w inv rl) := by
    rw [← h0]
    exact mem_cells.mpr fun k => axisCell_lt _ _ _ _ _ (axisCells_pos _ _)
  refine not_pays_of_crowded hc ?_ hpays
  rw [countKeys_succ]
  have hkeys : (List.range n).map (fun a =>
      linearIndex (gridCells R n w inv rl) (cellOf R n w inv rl a)) =
      List.replicate n (linearIndex (gridCells R n w inv rl) c) := by
    rw [List.eq_replicate_iff]
    refine ⟨by simp, ?_⟩
    intro x hx
    obtain ⟨a, ha, rfl⟩ := List.mem_map.mp hx
    rw [h a (List.mem_range.mp ha)]
  rw [hkeys, List.count_replicate_self]

/-- The box tests of `CellGrid::build` along periodic axes are those of `cellGridFits`; only the
occupancy is left to the atoms. -/
theorem build_isSome_iff (hn : 2 ≤ n) (hper : ∀ k, opt.periodic k = true)
    (hbox : ∀ k, box k k ≠ 0) :
    (CellGrid.build R n (foldWidth box) (foldInv box opt) (opt.cutoff + opt.skin)).isSome = true ↔
      cellGridFits n box opt = true ∧ gridPays R n box opt (opt.cutoff + opt.skin) := by
  have hinv : ∀ k, foldInv box opt k ≠ 0 := by
    intro k
    rw [foldInv, if_pos ⟨hper k, hbox k⟩]
    exact one_div_ne_zero (hbox k)
  have hcells : ∀ k, gridCells R n (foldWidth box) (foldInv box opt) (opt.cutoff + opt.skin) k =
      axisCells (box k k) (opt.cutoff + opt.skin) := by
    intro k
    rw [gridCells, axisExtent, if_pos (hinv k)]
    rfl
  have hfit : ∀ k, 3 ≤ ⌊box k k / (opt.cutoff + opt.skin)⌋ ↔
      3 ≤ axisCells (box k k) (opt.cutoff + opt.skin) := by
    intro k
    unfold axisCells
    simp only
    split <;> omega
  have hfitting : ∀ k, 3 ≤ ⌊box k k / (opt.cutoff + opt.skin)⌋ →
      fittingCells box (opt.cutoff + opt.skin) k = axisCells (box k k) (opt.cutoff + opt.skin) := by
    intro k hk
    unfold axisCells fittingCells
    simp only
    rw [if_pos (by omega)]
  rw [build_passes_iff]
  constructor
  · rintro ⟨⟨hrl, -⟩, h3, hcount, hpays⟩
    refine ⟨?_, hpays⟩
    have hwide : ∀ k, 3 ≤ ⌊box k k / (opt.cutoff + opt.skin)⌋ := by
      intro k
      rw [hfit k, ← hcells k]
      exact h3 k (hinv k)
    simp only [hcells] at hcount
    rw [← hfitting 0 (hwide 0), ← hfitting 1 (hwide 1), ← hfitting 2 (hwide 2)] at hcount
    exact decide_eq_true ⟨fun k => ⟨hper k, hrl, hwide k⟩, hcount⟩
  · rintro ⟨hfits, hpays⟩
    obtain ⟨haxes, hmin, hmax⟩ := of_decide_eq_true hfits
    rw [hfitting 0 (haxes 0).2.2, hfitting 1 (haxes 1).2.2, hfitting 2 (haxes 2).2.2] at hmin hmax
    refine ⟨⟨(haxes 0).2.1, hn⟩, ?_, ?_, hpays⟩
    · intro k _
      rw [hcells k]
      exact (hfit k).mp (haxes k).2.2
    · simp only [hcells]
      exact ⟨hmin, hmax⟩

theorem cellGridFits_of_isMic (hn : 20000 < n) (h : isMic n box opt = true) :
    cellGridFits n box opt = true := by
  simp only [isMic, Bool.and_eq_true, Bool.or_eq_true, decide_eq_true_eq] at h
  rcases h.1.2 with hle | hfits
  · omega
  · exact hfits

variable [IsStrictOrderedRing K]

theorem cellGridFits_axis (h : cellGridFits n box opt = true) (k : Fin 3) :
    opt.periodic k = true ∧ 0 < box k k := by
  obtain ⟨haxes, -⟩ := of_decide_eq_true h
  obtain ⟨hper, hrl, hfit⟩ := haxes k
  have hquot : (0 : K) < box k k / (opt.cutoff + opt.skin) := by
    have hthree := Int.le_floor.mp hfit
    push_cast at hthree
    linarith
  exact ⟨hper, (div_pos_iff_of_pos_right hrl).mp hquot⟩

/-- A system past the atom cap is scanned by cells at both radii, in the rebuild at cutoff + skin and in
the builds at the cutoff, exactly when the box also fits the grid at the bare cutoff and the atoms are
spread out enough for the grid to pay at both. -/
theorem build_past_cap_iff [OutwardRoot K] {s : BoxSetup K} (hn : 20000 < n)
    (hs : setup n box opt = .ok s) (hmic : s.mic = true)
    (R : Positions K) :
    (CellGrid.build R n (foldWidth box) (foldInv box opt) (opt.cutoff + opt.skin)).isSome = true ∧
      (CellGrid.build R n (foldWidth box) (foldInv box opt) opt.cutoff).isSome = true ↔
    cellGridFits n box { opt with skin := 0 } = true ∧
      gridPays R n box opt (opt.cutoff + opt.skin) ∧ gridPays R n box opt opt.cutoff := by
  have hfits : cellGridFits n box opt = true := by
    apply cellGridFits_of_isMic hn
    rw [← setup_mic hs, hmic]
  have haxis := cellGridFits_axis hfits
  have hatoms : 2 ≤ n := by omega
  have hlist := build_isSome_iff (R := R) hatoms (fun k => (haxis k).1) fun k => (haxis k).2.ne'
  have heval : (CellGrid.build R n (foldWidth box) (foldInv box opt) opt.cutoff).isSome = true ↔
      cellGridFits n box { opt with skin := 0 } = true ∧ gridPays R n box opt opt.cutoff := by
    have hper : ∀ k, ({ opt with skin := 0 } : Options K).periodic k = true := fun k => (haxis k).1
    have h := build_isSome_iff (R := R) hatoms hper fun k => (haxis k).2.ne'
    simp only [add_zero] at h
    exact h
  rw [hlist, heval]
  constructor
  · rintro ⟨⟨-, hpays⟩, hbare, hpays'⟩
    exact ⟨hbare, hpays, hpays'⟩
  · rintro ⟨hbare, hpays, hpays'⟩
    exact ⟨⟨hfits, hpays⟩, hbare, hpays'⟩

end Radius

section Droplet

/-- A box 300 Angstrom wide. -/
def wideBox : Box ℚ := Matrix.diagonal fun _ => 300

/-- A cutoff of 10 and a skin of 1 along three periodic axes. -/
def wideOptions : Options ℚ := ⟨10, 1, fun _ => true⟩

/-- A thread of 20001 atoms that is 2 Angstrom long. -/
def droplet : Positions ℚ := fun a => ![a / 10000, 0, 0]

theorem cellCoord_of_lt_one {t : ℚ} (h0 : 0 ≤ t) (h1 : t < 1) {m : ℕ} (hm : 0 < m) :
    cellCoord t m = 0 := by
  have hfloor : ⌊t⌋ = 0 := Int.floor_eq_zero_iff.mpr ⟨h0, h1⟩
  have := cellCoord_eq t hm
  omega

/-- The thread lies in one cell of either grid. -/
theorem droplet_cellOf {rl : ℚ} (hrl : 10 ≤ rl) {a : ℕ} (ha : a < 20001) :
    cellOf droplet 20001 (foldWidth wideBox) (foldInv wideBox wideOptions) rl a = fun _ => 0 := by
  have hinv : ∀ k, foldInv wideBox wideOptions k = 1 / 300 := by
    intro k
    simp [foldInv, wideOptions, wideBox]
  have hx : (a : ℚ) ≤ 20000 := by exact_mod_cast Nat.lt_succ_iff.mp ha
  funext k
  have hm := axisCells_pos (axisExtent droplet 20001 (foldWidth wideBox)
    (foldInv wideBox wideOptions) k).2 rl
  have hcells : (axisCells (axisExtent droplet 20001 (foldWidth wideBox)
      (foldInv wideBox wideOptions) k).2 rl : ℚ) ≤ 30 := by
    have hext : (axisExtent droplet 20001 (foldWidth wideBox)
        (foldInv wideBox wideOptions) k).2 = 300 := by
      rw [axisExtent, hinv, if_pos (by norm_num)]
      simp [foldWidth, wideBox]
    rw [hext]
    by_cases hone : axisCells (300 : ℚ) rl = 1
    · rw [hone]
      norm_num
    · have hwidth := axisCells_mul_le (show 0 < rl by linarith) hone
      have : (axisCells (300 : ℚ) rl : ℚ) * 10 ≤ 300 :=
        (mul_le_mul_of_nonneg_left hrl (Nat.cast_nonneg _)).trans hwidth
      linarith
  have hfrac : 0 ≤ droplet a k * (1 / 300) ∧ droplet a k * (1 / 300) ≤ 2 / 300 := by
    fin_cases k
    · constructor
      · simp only [droplet]
        norm_num
        positivity
      · simp only [droplet]
        norm_num
        linarith
    · norm_num [droplet]
    · norm_num [droplet]
  have hfloor : ⌊droplet a k * (1 / 300)⌋ = 0 :=
    Int.floor_eq_zero_iff.mpr ⟨hfrac.1, by linarith [hfrac.2]⟩
  rw [cellOf, axisCell, if_pos (by rw [hinv]; norm_num), hinv, hfloor, Int.cast_zero, sub_zero]
  apply cellCoord_of_lt_one
  · exact mul_nonneg hfrac.1 (Nat.cast_nonneg _)
  · calc droplet a k * (1 / 300) * (gridCells droplet 20001 (foldWidth wideBox)
          (foldInv wideBox wideOptions) rl k : ℚ)
        ≤ 2 / 300 * 30 := mul_le_mul hfrac.2 hcells (Nat.cast_nonneg _) (by norm_num)
      _ < 1 := by norm_num
  · exact hm

theorem wideBox_isMic : isMic 20001 wideBox wideOptions = true := by
  have hfloor : ⌊(300 : ℚ) / 11⌋ = 27 := by norm_num
  have hfitting : ∀ k, fittingCells wideBox (wideOptions.cutoff + wideOptions.skin) k = 27 := by
    intro k
    have hquot : wideBox k k / (wideOptions.cutoff + wideOptions.skin) = 300 / 11 := by
      norm_num [wideBox, wideOptions]
    rw [fittingCells, hquot, hfloor]
    rfl
  have hfits : cellGridFits 20001 wideBox wideOptions = true := by
    apply decide_eq_true
    simp only [hfitting]
    refine ⟨fun k => ⟨rfl, by norm_num [wideOptions], ?_⟩, by decide, by decide⟩
    have hquot : wideBox k k / (wideOptions.cutoff + wideOptions.skin) = 300 / 11 := by
      norm_num [wideBox, wideOptions]
    rw [hquot, hfloor]
    norm_num
  have hcutoff : ¬ ∃ k, wideOptions.periodic k = true ∧
      1 / 2 * wideBox k k < wideOptions.cutoff := by
    rintro ⟨k, -, hk⟩
    norm_num [wideBox, wideOptions] at hk
  have horth : orthorhombic wideBox = true := by simp [orthorhombic, wideBox]
  rw [isMic, horth, hfits, decide_eq_false hcutoff]
  rfl

/-- No grid pays for the thread. -/
theorem build_past_cap_iff_droplet :
    ¬ (cellGridFits 20001 wideBox { wideOptions with skin := 0 } = true ∧
      gridPays droplet 20001 wideBox wideOptions 11 ∧
      gridPays droplet 20001 wideBox wideOptions 10) := by
  intro h
  have horth := orthorhombic_of_isMic wideBox_isMic
  have hsum : wideOptions.cutoff + wideOptions.skin = 11 := by norm_num [wideOptions]
  have hbuilds := (build_past_cap_iff (by decide)
    (setup_of_not_general (not_general_of_orthorhombic horth)) wideBox_isMic droplet).mpr
      ⟨h.1, by rw [hsum]; exact h.2.1, h.2.2⟩
  have hnone : CellGrid.build droplet 20001 (foldWidth wideBox) (foldInv wideBox wideOptions)
      wideOptions.cutoff = none := build_of_one_cell fun a ha => droplet_cellOf le_rfl ha
  rw [hnone] at hbuilds
  exact absurd hbuilds.2 (by decide)

/-- The crowded thread: admitted past the cap, and built by the brute-force scan. -/
theorem not_build_past_cap :
    ¬ ∀ (n : ℕ) (R : Positions ℚ) (box : Box ℚ) (opt : Options ℚ) (s : BoxSetup ℚ), 20000 < n →
      setup n box opt = .ok s → s.mic = true →
      (CellGrid.build R n (foldWidth box) (foldInv box opt) (opt.cutoff + opt.skin)).isSome = true ∧
        (CellGrid.build R n (foldWidth box) (foldInv box opt) opt.cutoff).isSome = true := by
  intro h
  have horth := orthorhombic_of_isMic wideBox_isMic
  have hbuild := (h 20001 droplet wideBox wideOptions (micSetup 20001 wideBox wideOptions)
    (by decide) (setup_of_not_general (not_general_of_orthorhombic horth)) wideBox_isMic).2
  have hnone : CellGrid.build droplet 20001 (foldWidth wideBox) (foldInv wideBox wideOptions)
      wideOptions.cutoff = none := build_of_one_cell fun a ha => droplet_cellOf le_rfl ha
  rw [hnone] at hbuild
  exact absurd hbuild (by decide)

end Droplet
end Rgpot.Nlist
