import Rgpot.Nlist.HalfList

/-! When the image search returns, and with it a call on a general cell. -/
namespace Rgpot.Nlist
open Rounding Lattice OutwardRoot

/-- An image index the search takes. -/
def InRange (v : ℤ) : Prop := -2 ^ 63 + 1 < v ∧ v < 2 ^ 63 - 1

theorem InRange.neg_iff {v : ℤ} : InRange (-v) ↔ InRange v := by
  unfold InRange
  omega

theorem checkedIndex_eq_ok_iff {v w : ℤ} : checkedIndex v = .ok w ↔ w = v ∧ InRange v := by
  unfold checkedIndex InRange
  split
  · simp only [reduceCtorEq, false_iff]
    omega
  · simp only [Except.ok.injEq]
    omega

/-- A count times a width that fits neither wraps nor overflows. -/
theorem checkedCount_eq_ok_iff {count c : ℕ} {low high : ℤ} (hpos : low ≤ high)
    (hlow : InRange low) (hhigh : InRange high) :
    checkedCount count low high = .ok c ↔
      c = count * (high - low + 1).toNat ∧ count * (high - low + 1).toNat < 2 ^ 63 := by
  have hwidth : ((high - low + 1) % 2 ^ 64).toNat = (high - low + 1).toNat := by
    unfold InRange at hlow hhigh
    rw [Int.emod_eq_of_lt (by omega) (by omega)]
  have hnonzero : 0 < (high - low + 1).toNat := by omega
  unfold checkedCount
  simp only [hwidth]
  have hle : ¬ (2 ^ 63 - 1) / (high - low + 1).toNat < count ↔
      count * (high - low + 1).toNat < 2 ^ 63 := by
    rw [not_lt, Nat.le_div_iff_mul_le hnonzero]
    omega
  split
  · rename_i h
    have hbig := h.resolve_left hnonzero.ne'
    simp only [reduceCtorEq, false_iff, not_and]
    exact fun _ hlt => (hle.mpr hlt) hbig
  · rename_i h
    have hsmall : ¬ (2 ^ 63 - 1) / (high - low + 1).toNat < count := fun hc => h (Or.inr hc)
    simp only [Except.ok.injEq, hle.mp hsmall, and_true, eq_comm]

namespace MinimumImage
variable {K : Type} [Field K] [LinearOrder K] [FloorRing K]

/-- The rounded fractional coordinates, zero off the periodic axes. -/
def nearestIndex (m : MinimumImage K) (d : Vec3 K) (k : Fin 3) : ℤ :=
  if m.periodic k then halfAway (m.frac d k) else 0

def reduced (m : MinimumImage K) (d : Vec3 K) : Vec3 K := m.candidate d (m.nearestIndex d)

variable [OutwardRoot K]

/-- The index bounds of the search around a reduced vector. -/
def low (m : MinimumImage K) (v : Vec3 K) (k : Fin 3) : ℤ :=
  if m.periodic k then ⌊m.frac v k - sqrt (sqNorm v) * m.dualNorm k⌋ - 1 else 0

def high (m : MinimumImage K) (v : Vec3 K) (k : Fin 3) : ℤ :=
  if m.periodic k then ⌈m.frac v k + sqrt (sqNorm v) * m.dualNorm k⌉ + 1 else 0

def width (m : MinimumImage K) (v : Vec3 K) (k : Fin 3) : ℕ := (m.high v k - m.low v k + 1).toNat

/-- The separation is within the range of the search: every index fits, and so does the number of
candidates. -/
structure Fits (m : MinimumImage K) (d : Vec3 K) : Prop where
  index : ∀ k, InRange (m.nearestIndex d k)
  low : ∀ k, InRange (m.low (m.reduced d) k)
  high : ∀ k, InRange (m.high (m.reduced d) k)
  count : m.width (m.reduced d) 0 * m.width (m.reduced d) 1 * m.width (m.reduced d) 2 < 2 ^ 63

variable {m : MinimumImage K} {d v : Vec3 K}

omit [OutwardRoot K] in
theorem initialIndex_eq_ok_iff {k : Fin 3} {n : ℤ} :
    m.initialIndex d k = .ok n ↔ n = m.nearestIndex d k ∧ InRange (m.nearestIndex d k) :=
  checkedIndex_eq_ok_iff

theorem bounds_eq_ok_iff {k : Fin 3} {b : ℤ × ℤ} : m.bounds v (sqrt (sqNorm v)) k = .ok b ↔
    b = (m.low v k, m.high v k) ∧ InRange (m.low v k) ∧ InRange (m.high v k) := by
  unfold MinimumImage.bounds MinimumImage.low MinimumImage.high
  split
  · simp only [Fallible.bind_eq_ok, checkedIndex_eq_ok_iff, pure, Except.pure, Except.ok.injEq]
    constructor
    · rintro ⟨low, ⟨rfl, hlow⟩, high, ⟨rfl, hhigh⟩, rfl⟩
      exact ⟨rfl, hlow, hhigh⟩
    · rintro ⟨rfl, hlow, hhigh⟩
      exact ⟨_, ⟨rfl, hlow⟩, _, ⟨rfl, hhigh⟩, rfl⟩
  · have hzero : InRange 0 := by
      unfold InRange
      omega
    simp only [pure, Except.pure, Except.ok.injEq, hzero, and_true, eq_comm]

section Range
variable [IsStrictOrderedRing K]

theorem low_le_high [Lawful K] (hdual : ∀ k, 0 ≤ m.dualNorm k) (v : Vec3 K) (k : Fin 3) :
    m.low v k ≤ m.high v k := by
  unfold MinimumImage.low MinimumImage.high
  split
  · have hextent : 0 ≤ sqrt (sqNorm v) * m.dualNorm k :=
      mul_nonneg (Lawful.sqrt_nonneg _) (hdual k)
    have hfloor := Int.floor_le (m.frac v k - sqrt (sqNorm v) * m.dualNorm k)
    have hceil := Int.le_ceil (m.frac v k + sqrt (sqNorm v) * m.dualNorm k)
    have hle : ⌊m.frac v k - sqrt (sqNorm v) * m.dualNorm k⌋ ≤
        ⌈m.frac v k + sqrt (sqNorm v) * m.dualNorm k⌉ := by
      have : (⌊m.frac v k - sqrt (sqNorm v) * m.dualNorm k⌋ : K) ≤
        ⌈m.frac v k + sqrt (sqNorm v) * m.dualNorm k⌉ := by linarith
      exact_mod_cast this
    omega
  · exact le_rfl

omit [FloorRing K] [OutwardRoot K] [LinearOrder K] [IsStrictOrderedRing K] in
theorem vec_eta (n : Fin 3 → ℤ) : ![n 0, n 1, n 2] = n := by
  ext k
  fin_cases k <;> rfl

/-- The search returns exactly on the separations within its range. -/
theorem exists_fold_iff [Lawful K] (hdual : ∀ k, 0 ≤ m.dualNorm k) :
    (∃ v, m.fold d = .ok v) ↔ m.Fits d := by
  have hle := low_le_high hdual (m.reduced d)
  have hwidth : ∀ k, 1 ≤ m.width (m.reduced d) k := fun k => by
    have := hle k
    unfold MinimumImage.width
    omega
  constructor
  · rintro ⟨v, hv⟩
    simp only [MinimumImage.fold, Fallible.bind_eq_ok, initialIndex_eq_ok_iff] at hv
    obtain ⟨_, ⟨rfl, h0⟩, _, ⟨rfl, h1⟩, _, ⟨rfl, h2⟩, hv⟩ := hv
    rw [vec_eta] at hv
    simp only [bounds_eq_ok_iff] at hv
    obtain ⟨_, ⟨rfl, hl0, hh0⟩, _, hc0, _, ⟨rfl, hl1, hh1⟩, _, hc1, _, ⟨rfl, hl2, hh2⟩, c2, hc2,
      -⟩ := hv
    obtain ⟨rfl, -⟩ := (checkedCount_eq_ok_iff (hle 0) hl0 hh0).mp hc0
    obtain ⟨rfl, -⟩ := (checkedCount_eq_ok_iff (hle 1) hl1 hh1).mp hc1
    obtain ⟨-, hcount⟩ := (checkedCount_eq_ok_iff (hle 2) hl2 hh2).mp hc2
    rw [one_mul] at hcount
    refine ⟨?_, ?_, ?_, hcount⟩
    · intro k
      fin_cases k
      exacts [h0, h1, h2]
    · intro k
      fin_cases k
      exacts [hl0, hl1, hl2]
    · intro k
      fin_cases k
      exacts [hh0, hh1, hh2]
  · intro h
    have hb : ∀ k, m.bounds (m.reduced d) (sqrt (sqNorm (m.reduced d))) k =
        .ok (m.low (m.reduced d) k, m.high (m.reduced d) k) :=
      fun k => bounds_eq_ok_iff.mpr ⟨rfl, h.low k, h.high k⟩
    -- the counts of the first axes are no larger than the count of all
    have h01 : m.width (m.reduced d) 0 * m.width (m.reduced d) 1 < 2 ^ 63 :=
      (Nat.le_mul_of_pos_right _ (hwidth 2)).trans_lt h.count
    have h0 : m.width (m.reduced d) 0 < 2 ^ 63 :=
      (Nat.le_mul_of_pos_right _ (hwidth 1)).trans_lt h01
    have hc : ∀ k (count : ℕ), count * m.width (m.reduced d) k < 2 ^ 63 →
        checkedCount count (m.low (m.reduced d) k) (m.high (m.reduced d) k) =
          .ok (count * m.width (m.reduced d) k) :=
      fun k count hlt => (checkedCount_eq_ok_iff (hle k) (h.low k) (h.high k)).mpr ⟨rfl, hlt⟩
    have hi : ∀ k, m.initialIndex d k = .ok (m.nearestIndex d k) :=
      fun k => initialIndex_eq_ok_iff.mpr ⟨rfl, h.index k⟩
    exact ⟨_, fold_of_bounds (hi 0) (hi 1) (hi 2) (by rw [vec_eta]; rfl) (hb 0) (hb 1) (hb 2)
      (hc 0 1 (by rwa [one_mul])) (hc 1 _ (by rwa [one_mul]))
      (hc 2 _ (by simpa only [one_mul] using h.count))⟩

/-- A short separation in the middle of the cell is within the range of the search. -/
theorem fits_of_short [Lawful K] (hdual : ∀ k, 0 ≤ m.dualNorm k) (hfrac : ∀ k, |m.frac d k| < 1 / 2)
    (hextent : ∀ k, sqrt (sqNorm d) * m.dualNorm k ≤ 1) : m.Fits d := by
  have hindex : m.nearestIndex d = 0 := by
    funext k
    have hround := halfAway_eq_of_abs_lt (t := m.frac d k) (m := 0) (by simpa using hfrac k)
    simp [MinimumImage.nearestIndex, hround]
  have hreduced : m.reduced d = d := by
    funext c
    simp [MinimumImage.reduced, hindex, MinimumImage.candidate]
  have hlow : ∀ k, -3 ≤ m.low d k := fun k => by
    unfold MinimumImage.low
    split
    · have hmiddle := abs_lt.mp (hfrac k)
      have : (-2 : ℤ) ≤ ⌊m.frac d k - sqrt (sqNorm d) * m.dualNorm k⌋ := by
        rw [Int.le_floor]
        push_cast
        linarith [hextent k]
      omega
    · norm_num
  have hhigh : ∀ k, m.high d k ≤ 3 := fun k => by
    unfold MinimumImage.high
    split
    · have hmiddle := abs_lt.mp (hfrac k)
      have : ⌈m.frac d k + sqrt (sqNorm d) * m.dualNorm k⌉ ≤ 2 := by
        rw [Int.ceil_le]
        push_cast
        linarith [hextent k]
      omega
    · norm_num
  have hle := low_le_high hdual d
  have hwidth : ∀ k, m.width d k ≤ 7 := fun k => by
    have := hlow k
    have := hhigh k
    unfold MinimumImage.width
    omega
  refine ⟨fun k => ?_, fun k => ?_, fun k => ?_, ?_⟩
  · rw [hindex]
    exact ⟨by norm_num, by norm_num⟩
  · rw [hreduced]
    exact ⟨lt_of_lt_of_le (by norm_num) (hlow k),
      lt_of_le_of_lt ((hle k).trans (hhigh k)) (by norm_num)⟩
  · rw [hreduced]
    exact ⟨lt_of_lt_of_le (by norm_num) ((hlow k).trans (hle k)),
      lt_of_le_of_lt (hhigh k) (by norm_num)⟩
  · rw [hreduced]
    calc m.width d 0 * m.width d 1 * m.width d 2 ≤ 7 * 7 * 7 :=
          Nat.mul_le_mul (Nat.mul_le_mul (hwidth 0) (hwidth 1)) (hwidth 2)
      _ < 2 ^ 63 := by norm_num

end Range

section Oddness
variable [IsStrictOrderedRing K]

omit [OutwardRoot K] [LinearOrder K] [FloorRing K] [IsStrictOrderedRing K] in
theorem frac_neg (v : Vec3 K) (k : Fin 3) : m.frac (-v) k = -m.frac v k := by
  simp only [MinimumImage.frac, Pi.neg_apply]
  ring

omit [OutwardRoot K] in
theorem reduced_neg (d : Vec3 K) : m.reduced (-d) = -m.reduced d := by
  have hindex : m.nearestIndex (-d) = -m.nearestIndex d := by
    funext k
    simp only [MinimumImage.nearestIndex, Pi.neg_apply, frac_neg, halfAway_neg]
    split <;> simp
  funext c
  simp only [MinimumImage.reduced, hindex, MinimumImage.candidate, Pi.neg_apply, Int.cast_neg]
  ring

theorem low_neg (v : Vec3 K) (k : Fin 3) : m.low (-v) k = -m.high v k := by
  unfold MinimumImage.low MinimumImage.high
  rw [frac_neg, sqNorm_neg, ← neg_add', Int.floor_neg]
  split
  · ring
  · rfl

theorem high_neg (v : Vec3 K) (k : Fin 3) : m.high (-v) k = -m.low v k := by
  have h := low_neg (m := m) (-v) k
  rw [neg_neg] at h
  rw [h, neg_neg]

theorem width_neg (v : Vec3 K) (k : Fin 3) : m.width (-v) k = m.width v k := by
  unfold MinimumImage.width
  rw [low_neg, high_neg]
  congr 1
  ring

/-- A separation and its opposite are in range together. -/
theorem Fits.neg (h : m.Fits d) : m.Fits (-d) where
  index k := by
    have hindex : m.nearestIndex (-d) k = -m.nearestIndex d k := by
      simp only [MinimumImage.nearestIndex, frac_neg, halfAway_neg]
      split <;> simp
    rw [hindex]
    exact InRange.neg_iff.mpr (h.index k)
  low k := by
    rw [reduced_neg, low_neg]
    exact InRange.neg_iff.mpr (h.high k)
  high k := by
    rw [reduced_neg, high_neg]
    exact InRange.neg_iff.mpr (h.low k)
  count := by
    simp only [reduced_neg, width_neg]
    exact h.count

end Oddness

/-- The search of a cell the constructor accepts. -/
def ofCell (cell : Box K) (periodic : Fin 3 → Bool) : MinimumImage K :=
  ⟨cell, cellInverse cell, fun k => sqrt (sqNorm fun r => cellInverse cell r k), periodic⟩

/-- The condition estimate leaves half of the working precision. -/
def WellConditioned (cell : Box K) : Prop :=
  rowSumNorm cell * rowSumNorm (cellInverse cell) * longDoubleEpsilon ≤
    sqrt (longDoubleEpsilon : K)

omit [FloorRing K] in
theorem make_eq_ok_iff {cell : Box K} {per : Fin 3 → Bool} (hdet : cell.det ≠ 0) :
    MinimumImage.make cell per = .ok m ↔ WellConditioned cell ∧ m = ofCell cell per := by
  rw [← cellDet_eq_det] at hdet
  unfold MinimumImage.make
  rw [if_neg hdet]
  split
  · next h => simp [WellConditioned, h]
  · next h =>
    rw [Except.ok.injEq]
    exact ⟨fun he => ⟨not_not.mp h, he.symm⟩, fun he => he.2.symm⟩

end MinimumImage

section General
variable {K σ : Type} [Field K] [LinearOrder K] [FloorRing K] [OutwardRoot K]
  [IsStrictOrderedRing K] [Lawful K]
variable {R : Positions K} {n : ℕ} {box : Box K} {opt : Options K}

theorem exists_fold_ofCell_iff {d : Vec3 K} :
    (∃ v, (MinimumImage.ofCell box opt.periodic).fold d = .ok v) ↔
      (MinimumImage.ofCell box opt.periodic).Fits d :=
  MinimumImage.exists_fold_iff fun _ => Lawful.sqrt_nonneg _

omit [IsStrictOrderedRing K] [Lawful K] in
theorem exists_generalVisit_iff {img : MinimumImage K} {lc : ListCutoff K} {vc : K} :
    (∃ r, generalVisit img R n lc vc = .ok r) ↔
      ∀ i j, i < j → j < n → ∃ v, img.fold (R j - R i) = .ok v := by
  have hscan : (∃ r, generalVisit img R n lc vc = .ok r) ↔
      ∃ vs, ((ascendingPairs n).mapM fun p => do
      let d ← img.fold (R p.2 - R p.1)
      return (⟨p.1, p.2, d, sqNorm d⟩ : Visit K)) = .ok vs := by
    unfold generalVisit
    constructor
    · rintro ⟨r, hr⟩
      obtain ⟨vs, hvs, -⟩ := Fallible.bind_eq_ok.mp hr
      exact ⟨vs, hvs⟩
    · rintro ⟨vs, hvs⟩
      rw [hvs]
      exact ⟨_, rfl⟩
  rw [hscan, Fallible.exists_mapM_eq_ok]
  have hstep : ∀ p : ℕ × ℕ, (∃ y, (do
      let d ← img.fold (R p.2 - R p.1)
      return (⟨p.1, p.2, d, sqNorm d⟩ : Visit K)) = .ok y) ↔
        ∃ v, img.fold (R p.2 - R p.1) = .ok v := by
    intro p
    constructor
    · rintro ⟨y, hy⟩
      obtain ⟨v, hv, -⟩ := Fallible.bind_eq_ok.mp hy
      exact ⟨v, hv⟩
    · rintro ⟨v, hv⟩
      rw [hv]
      exact ⟨_, rfl⟩
  constructor
  · intro h i j hij hj
    exact (hstep (i, j)).mp (h (i, j) (mem_ascendingPairs.mpr ⟨hij, hj⟩))
  · rintro h ⟨i, j⟩ hp
    obtain ⟨hij, hj⟩ := mem_ascendingPairs.mp hp
    exact (hstep (i, j)).mpr (h i j hij hj)

/-- A call on a general cell returns exactly when the cell is well conditioned and every separation
is in the range of the search. -/
theorem exists_accumulate_general_iff (hgen : isGeneral box opt = true) (hdet : box.det ≠ 0)
    (law : PairLaw K σ) (F : ℕ → Vec3 K) (obs : σ) :
    (∃ r, accumulateWith none R n box opt law F obs = .ok r) ↔
      MinimumImage.WellConditioned box ∧ ∀ i j, i < j → j < n →
        (MinimumImage.ofCell box opt.periodic).Fits (R i - R j) := by
  constructor
  · rintro ⟨r, hr⟩
    obtain ⟨l, hl, -⟩ := Fallible.bind_eq_ok.mp hr
    obtain ⟨img, himg, hfold, -⟩ := buildForEval_general hgen hl
    obtain ⟨hcond, rfl⟩ := (MinimumImage.make_eq_ok_iff hdet).mp himg
    refine ⟨hcond, fun i j hij hj => ?_⟩
    have hfits := (exists_fold_ofCell_iff.mp ⟨_, hfold i j hij hj⟩).neg
    rwa [neg_sub] at hfits
  · rintro ⟨hcond, hfits⟩
    have himg : MinimumImage.make box opt.periodic = .ok (.ofCell box opt.periodic) :=
      (MinimumImage.make_eq_ok_iff hdet).mpr ⟨hcond, rfl⟩
    obtain ⟨scan, hscan⟩ : ∃ scan, generalVisit (.ofCell box opt.periodic) R n
        (.nextafter (opt.cutoff * opt.cutoff)) (-1) = .ok scan := by
      rw [exists_generalVisit_iff]
      intro i j hij hj
      have hneg := (hfits i j hij hj).neg
      rw [neg_sub] at hneg
      exact exists_fold_ofCell_iff.mpr hneg
    obtain ⟨l, hl⟩ : ∃ l, buildForEval R n box opt = .ok l := by
      simp only [buildForEval, setup, hgen, if_true, himg, collect, hscan, bind, Except.bind, pure,
        Except.pure]
      exact ⟨_, rfl⟩
    obtain ⟨img, himg', -, hlists, hmode, hlimg, -⟩ := buildForEval_general hgen hl
    obtain rfl := Except.ok.inj (himg.symm.trans himg')
    obtain ⟨vs, hvs⟩ : ∃ vs, (entries l.rows l.n).mapM (l.candidate R) = .ok vs := by
      rw [Fallible.exists_mapM_eq_ok]
      intro e he
      rw [exists_candidate_iff]
      intro _
      obtain ⟨hij, hj⟩ := hlists.entry_lt he
      rw [hlimg]
      exact exists_fold_ofCell_iff.mpr (hfits _ _ hij hj)
    refine ⟨(summed law F obs (vs.filter fun v => v.r2 ≤ l.opt.cutoff * l.opt.cutoff),
      if l.mic then some l.dropPairs else none), ?_⟩
    simp only [accumulateWith, hl, accumulate_eq, CachedPairList.forEach, hvs, bind, Except.bind,
      pure, Except.pure, Except.map]

end General

end Rgpot.Nlist
