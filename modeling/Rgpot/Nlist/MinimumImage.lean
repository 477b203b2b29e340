import Rgpot.Nlist.Basic

/-! The lattice minimum image of a general cell: a bounded search over integer vectors. -/
namespace Rgpot.Nlist
open Rounding Lattice OutwardRoot

structure MinimumImage (K : Type) where
  cell : Box K
  inverse : Box K
  dualNorm : Vec3 K
  periodic : Fin 3 → Bool

variable {K : Type} [Field K] [LinearOrder K] [OutwardRoot K]

/-- The default constructor zeroes every member. -/
def MinimumImage.empty : MinimumImage K := ⟨0, 0, 0, fun _ => false⟩

/-- `numeric_limits<long double>::epsilon()` of the x87 format. -/
def longDoubleEpsilon : K := 1 / 2 ^ 63

def cellDet (a : Box K) : K :=
  a 0 0 * (a 1 1 * a 2 2 - a 1 2 * a 2 1) - a 0 1 * (a 1 0 * a 2 2 - a 1 2 * a 2 0) +
    a 0 2 * (a 1 0 * a 2 1 - a 1 1 * a 2 0)

def cellInverse (a : Box K) : Box K :=
  !![(a 1 1 * a 2 2 - a 1 2 * a 2 1) / cellDet a, (a 0 2 * a 2 1 - a 0 1 * a 2 2) / cellDet a,
     (a 0 1 * a 1 2 - a 0 2 * a 1 1) / cellDet a;
     (a 1 2 * a 2 0 - a 1 0 * a 2 2) / cellDet a, (a 0 0 * a 2 2 - a 0 2 * a 2 0) / cellDet a,
     (a 0 2 * a 1 0 - a 0 0 * a 1 2) / cellDet a;
     (a 1 0 * a 2 1 - a 1 1 * a 2 0) / cellDet a, (a 0 1 * a 2 0 - a 0 0 * a 2 1) / cellDet a,
     (a 0 0 * a 1 1 - a 0 1 * a 1 0) / cellDet a]

/-- Largest absolute row sum. -/
def rowSumNorm (a : Box K) : K :=
  max (max (max 0 (|a 0 0| + |a 0 1| + |a 0 2|)) (|a 1 0| + |a 1 1| + |a 1 2|))
    (|a 2 0| + |a 2 1| + |a 2 2|)

/-- `MinimumImage(cell, periodic)`; every cell of the exact model is finite. -/
def MinimumImage.make (cell : Box K) (periodic : Fin 3 → Bool) : Except Exn (MinimumImage K) :=
  if cellDet cell = 0 then .error (.invalidArgument "periodic cell must be nonsingular")
  else if ¬ rowSumNorm cell * rowSumNorm (cellInverse cell) * longDoubleEpsilon ≤
      sqrt (longDoubleEpsilon : K) then
    .error (.invalidArgument "periodic cell is too ill-conditioned for image bounds")
  else .ok ⟨cell, cellInverse cell, fun k => sqrt (sqNorm fun r => cellInverse cell r k), periodic⟩

def checkedIndex (value : ℤ) : Except Exn ℤ :=
  if value ≤ -2 ^ 63 + 1 ∨ 2 ^ 63 - 1 ≤ value then
    .error (.overflowError "periodic image index is out of range")
  else .ok value

/-- The running image count with the uint64 width of one axis. -/
def checkedCount (count : ℕ) (low high : ℤ) : Except Exn ℕ :=
  let width := ((high - low + 1) % 2 ^ 64).toNat
  if width = 0 ∨ (2 ^ 63 - 1) / width < count then
    .error (.overflowError "periodic image search count is too large")
  else .ok (count * width)

/-- `low, low + 1, …, high`. -/
def indexRange (low high : ℤ) : List ℤ :=
  (List.range (high - low + 1).toNat).map fun t : ℕ => low + t

namespace MinimumImage
variable (m : MinimumImage K)

/-- Component `k` of the fractional coordinates. -/
def frac (v : Vec3 K) (k : Fin 3) : K :=
  v 0 * m.inverse 0 k + v 1 * m.inverse 1 k + v 2 * m.inverse 2 k

/-- `v - n H`, row by row. -/
def candidate (v : Vec3 K) (n : Fin 3 → ℤ) : Vec3 K := fun c =>
  v c - n 0 * m.cell 0 c - n 1 * m.cell 1 c - n 2 * m.cell 2 c

variable [FloorRing K]

def initialIndex (d : Vec3 K) (k : Fin 3) : Except Exn ℤ :=
  checkedIndex (if m.periodic k then halfAway (m.frac d k) else 0)

def bounds (reduced : Vec3 K) (radius : K) (k : Fin 3) : Except Exn (ℤ × ℤ) :=
  if m.periodic k then do
    let f := m.frac reduced k
    let extent := radius * m.dualNorm k
    let low ← checkedIndex (⌊f - extent⌋ - 1)
    let high ← checkedIndex (⌈f + extent⌉ + 1)
    return (low, high)
  else return (0, 0)

/-- The shorter of the best image so far and one candidate. -/
def keepShorter (best cand : Vec3 K) : Vec3 K := if sqNorm cand < sqNorm best then cand else best

def fold (d : Vec3 K) : Except Exn (Vec3 K) := do
  let n0 ← m.initialIndex d 0
  let n1 ← m.initialIndex d 1
  let n2 ← m.initialIndex d 2
  let reduced := m.candidate d ![n0, n1, n2]
  let radius := sqrt (sqNorm reduced)
  let b0 ← m.bounds reduced radius 0
  let c0 ← checkedCount 1 b0.1 b0.2
  let b1 ← m.bounds reduced radius 1
  let c1 ← checkedCount c0 b1.1 b1.2
  let b2 ← m.bounds reduced radius 2
  let _ ← checkedCount c1 b2.1 b2.2
  let images := (indexRange b0.1 b0.2).flatMap fun i => (indexRange b1.1 b1.2).flatMap fun j =>
    (indexRange b2.1 b2.2).map fun k => m.candidate reduced ![i, j, k]
  return images.foldl keepShorter reduced

end MinimumImage

omit [LinearOrder K] [OutwardRoot K] in
theorem cellDet_eq_det (a : Box K) : cellDet a = a.det := by
  rw [Matrix.det_fin_three, cellDet]
  ring

omit [LinearOrder K] [OutwardRoot K] in
theorem mul_cellInverse {a : Box K} (h : cellDet a ≠ 0) : a * cellInverse a = 1 := by
  have hd : cellDet a * (cellDet a)⁻¹ = 1 := mul_inv_cancel₀ h
  ext i j
  fin_cases i <;> fin_cases j <;>
    simp [Matrix.mul_apply, Fin.sum_univ_three, cellInverse, Matrix.of_apply, div_eq_mul_inv] <;>
    (first | (rw [← hd]; simp only [cellDet]; ring) | ring)

omit [LinearOrder K] [OutwardRoot K] in
theorem candidate_eq_image (m : MinimumImage K) (v : Vec3 K) (n : Fin 3 → ℤ) :
    m.candidate v n = image m.cell v n := by
  ext c
  simp only [MinimumImage.candidate, image, Pi.sub_apply, Matrix.vecMul, dotProduct,
    Fin.sum_univ_three]
  ring

omit [LinearOrder K] [OutwardRoot K] in
theorem frac_eq_vecMul (m : MinimumImage K) (v : Vec3 K) (k : Fin 3) :
    m.frac v k = (Matrix.vecMul v m.inverse) k := by
  simp [MinimumImage.frac, Matrix.vecMul, dotProduct, Fin.sum_univ_three]

theorem mem_indexRange {low high i : ℤ} : i ∈ indexRange low high ↔ low ≤ i ∧ i ≤ high := by
  simp only [indexRange, List.mem_map, List.mem_range]
  constructor
  · rintro ⟨t, ht, rfl⟩
    omega
  · rintro ⟨hl, hh⟩
    exact ⟨(i - low).toNat, by omega, by omega⟩

theorem checkedIndex_eq_ok {v w : ℤ} (h : checkedIndex v = .ok w) : w = v := by
  unfold checkedIndex at h
  split at h
  · cases h
  · exact (Except.ok.inj h).symm

section KeepShorter
open MinimumImage

omit [OutwardRoot K] in
theorem foldl_keepShorter_le (l : List (Vec3 K)) (b : Vec3 K) :
    sqNorm (l.foldl keepShorter b) ≤ sqNorm b := by
  induction l generalizing b with
  | nil => exact le_rfl
  | cons c l ih =>
    apply (ih _).trans
    unfold keepShorter
    split
    · next h => exact h.le
    · exact le_rfl

omit [OutwardRoot K] in
theorem foldl_keepShorter_le_of_mem {l : List (Vec3 K)} {c : Vec3 K} (hc : c ∈ l) (b : Vec3 K) :
    sqNorm (l.foldl keepShorter b) ≤ sqNorm c := by
  induction l generalizing b with
  | nil => cases hc
  | cons a l ih =>
    rcases List.mem_cons.mp hc with rfl | hc
    · apply (foldl_keepShorter_le l _).trans
      unfold keepShorter
      split
      · exact le_rfl
      · next h => exact not_lt.mp h
    · exact ih hc _

omit [OutwardRoot K] in
theorem foldl_keepShorter_mem (l : List (Vec3 K)) (b : Vec3 K) :
    l.foldl keepShorter b = b ∨ l.foldl keepShorter b ∈ l := by
  induction l generalizing b with
  | nil => exact Or.inl rfl
  | cons c l ih =>
    rcases ih (keepShorter b c) with h | h
    · rw [List.foldl_cons, h]
      unfold keepShorter
      split
      · exact Or.inr List.mem_cons_self
      · exact Or.inl rfl
    · exact Or.inr (List.mem_cons_of_mem _ h)

end KeepShorter

variable [FloorRing K]

omit [FloorRing K] in
/-- What an accepted cell gives the search. -/
theorem make_eq_ok {cell : Box K} {per : Fin 3 → Bool} {m : MinimumImage K}
    (h : MinimumImage.make cell per = .ok m) :
    cellDet cell ≠ 0 ∧ m.cell = cell ∧ m.inverse = cellInverse cell ∧ m.periodic = per ∧
      m.dualNorm = fun k => sqrt (sqNorm fun r => cellInverse cell r k) := by
  unfold MinimumImage.make at h
  split at h
  · cases h
  · next hd =>
    split at h
    · cases h
    · cases h
      exact ⟨hd, rfl, rfl, rfl, rfl⟩

omit [OutwardRoot K] in
theorem initialIndex_supported {m : MinimumImage K} {d : Vec3 K} {k : Fin 3} {n : ℤ}
    (h : m.initialIndex d k = .ok n) (hk : m.periodic k = false) : n = 0 := by
  have := checkedIndex_eq_ok h
  simpa [hk] using this

omit [OutwardRoot K] in
theorem bounds_eq_ok {m : MinimumImage K} {v : Vec3 K} {r : K} {k : Fin 3} {b : ℤ × ℤ}
    (h : m.bounds v r k = .ok b) :
    if m.periodic k then b = (⌊m.frac v k - r * m.dualNorm k⌋ - 1, ⌈m.frac v k + r * m.dualNorm k⌉ + 1)
    else b = (0, 0) := by
  unfold MinimumImage.bounds at h
  split at h
  · next hk =>
    rw [if_pos hk]
    simp only [bind, Except.bind, pure, Except.pure] at h
    split at h
    · cases h
    · next low hlow =>
      split at h
      · cases h
      · next high hhigh =>
        rw [← Except.ok.inj h, checkedIndex_eq_ok hlow, checkedIndex_eq_ok hhigh]
  · next hk =>
    rw [if_neg hk]
    exact (Except.ok.inj h).symm

/-- The parts of a search that returned. -/
theorem fold_eq_ok {m : MinimumImage K} {d v : Vec3 K} (h : m.fold d = .ok v) :
    ∃ (n : Fin 3 → ℤ) (b : Fin 3 → ℤ × ℤ), (∀ k, m.initialIndex d k = .ok (n k)) ∧
      (∀ k, m.bounds (m.candidate d n) (sqrt (sqNorm (m.candidate d n))) k = .ok (b k)) ∧
      v = ((indexRange (b 0).1 (b 0).2).flatMap fun i =>
        (indexRange (b 1).1 (b 1).2).flatMap fun j => (indexRange (b 2).1 (b 2).2).map fun k =>
          m.candidate (m.candidate d n) ![i, j, k]).foldl MinimumImage.keepShorter
            (m.candidate d n) := by
  unfold MinimumImage.fold at h
  simp only [bind, Except.bind, pure, Except.pure] at h
  split at h
  · cases h
  next n0 h0 =>
  split at h
  · cases h
  next n1 h1 =>
  split at h
  · cases h
  next n2 h2 =>
  split at h
  · cases h
  next b0 hb0 =>
  split at h
  · cases h
  next c0 _ =>
  split at h
  · cases h
  next b1 hb1 =>
  split at h
  · cases h
  next c1 _ =>
  split at h
  · cases h
  next b2 hb2 =>
  split at h
  · cases h
  refine ⟨![n0, n1, n2], ![b0, b1, b2], ?_, ?_, (Except.ok.inj h).symm⟩
  · intro k
    fin_cases k
    exacts [h0, h1, h2]
  · intro k
    fin_cases k
    exacts [hb0, hb1, hb2]

/-- A search whose indices and counts are in range returns the shortest candidate. -/
theorem fold_of_bounds {m : MinimumImage K} {d reduced : Vec3 K} {n0 n1 n2 : ℤ}
    {b0 b1 b2 : ℤ × ℤ} {c0 c1 c2 : ℕ} (h0 : m.initialIndex d 0 = .ok n0)
    (h1 : m.initialIndex d 1 = .ok n1) (h2 : m.initialIndex d 2 = .ok n2)
    (hred : m.candidate d ![n0, n1, n2] = reduced)
    (hb0 : m.bounds reduced (sqrt (sqNorm reduced)) 0 = .ok b0)
    (hb1 : m.bounds reduced (sqrt (sqNorm reduced)) 1 = .ok b1)
    (hb2 : m.bounds reduced (sqrt (sqNorm reduced)) 2 = .ok b2)
    (hc0 : checkedCount 1 b0.1 b0.2 = .ok c0) (hc1 : checkedCount c0 b1.1 b1.2 = .ok c1)
    (hc2 : checkedCount c1 b2.1 b2.2 = .ok c2) :
    m.fold d = .ok (((indexRange b0.1 b0.2).flatMap fun i => (indexRange b1.1 b1.2).flatMap fun j =>
      (indexRange b2.1 b2.2).map fun k => m.candidate reduced ![i, j, k]).foldl
        MinimumImage.keepShorter reduced) := by
  simp only [MinimumImage.fold, h0, h1, h2, hred, hb0, hc0, hb1, hc1, hb2, hc2, bind, Except.bind,
    pure, Except.pure]

variable [IsStrictOrderedRing K] [OutwardRoot.Lawful K]

omit [FloorRing K] [IsStrictOrderedRing K] in
theorem sqNorm_le_sqrt (v : Vec3 K) : normSq v ≤ sqrt (sqNorm v) * sqrt (sqNorm v) := by
  rw [← sqNorm_eq_normSq]
  exact Lawful.le_sqrt_mul_sqrt _

/-- An image no longer than the reduced one has its indices inside the search bounds. -/
theorem mem_bounds {m : MinimumImage K} {cell : Box K} {per : Fin 3 → Bool}
    (hm : MinimumImage.make cell per = .ok m) {v : Vec3 K} {n : Fin 3 → ℤ} (hn : Supported per n)
    (hle : normSq (image cell v n) ≤ sqrt (sqNorm v) * sqrt (sqNorm v)) {k : Fin 3} {b : ℤ × ℤ}
    (hb : m.bounds v (sqrt (sqNorm v)) k = .ok b) : n k ∈ indexRange b.1 b.2 := by
  obtain ⟨hd, hcell, hinv, hper, hdual⟩ := make_eq_ok hm
  have h := bounds_eq_ok hb
  rw [mem_indexRange]
  cases hk : m.periodic k with
  | false =>
    simp only [hk, Bool.false_eq_true, if_false] at h
    rw [h, hn k (by rw [← hper, hk])]
    simp
  | true =>
    simp only [hk, if_true] at h
    have hfrac := abs_frac_sub_le (mul_cellInverse hd) (Lawful.sqrt_nonneg _)
      (Lawful.sqrt_nonneg _) hle (sqNorm_le_sqrt fun r => cellInverse cell r k)
    rw [← hinv, ← frac_eq_vecMul, abs_le] at hfrac
    have hdk : m.dualNorm k = sqrt (sqNorm fun r => m.inverse r k) := by rw [hdual, hinv]
    rw [← hdk] at hfrac
    rw [h]
    constructor
    · have hl := Int.floor_le (m.frac v k - sqrt (sqNorm v) * m.dualNorm k)
      have : ⌊m.frac v k - sqrt (sqNorm v) * m.dualNorm k⌋ ≤ n k := by
        exact_mod_cast hl.trans (show _ ≤ (n k : K) by linarith)
      omega
    · have hu := Int.le_ceil (m.frac v k + sqrt (sqNorm v) * m.dualNorm k)
      have : n k ≤ ⌈m.frac v k + sqrt (sqNorm v) * m.dualNorm k⌉ := by
        exact_mod_cast (show (n k : K) ≤ _ by linarith).trans hu
      omega

/-- A search that returns found a nearest image. -/
theorem fold_isNearest {m : MinimumImage K} {cell : Box K} {per : Fin 3 → Bool}
    (hm : MinimumImage.make cell per = .ok m) {d v : Vec3 K} (h : m.fold d = .ok v) :
    IsNearest cell per d v := by
  obtain ⟨n, b, hn, hb, hv⟩ := fold_eq_ok h
  obtain ⟨-, hcell, -, hper, -⟩ := make_eq_ok hm
  have hns : Supported per n := fun k hk => initialIndex_supported (hn k) (by rw [hper, hk])
  set reduced := m.candidate d n with hred
  have hred' : reduced = image cell d n := by rw [hred, candidate_eq_image, hcell]
  -- the search ranges over images of the reduced vector
  refine ⟨?_, fun k hk => ?_⟩
  · rcases foldl_keepShorter_mem ((indexRange (b 0).1 (b 0).2).flatMap fun i =>
        (indexRange (b 1).1 (b 1).2).flatMap fun j => (indexRange (b 2).1 (b 2).2).map fun k =>
          m.candidate reduced ![i, j, k]) reduced with hr | hr
    · exact ⟨n, hns, by rw [hv, hr, hred']⟩
    · rw [← hv] at hr
      simp only [List.mem_flatMap, List.mem_map] at hr
      obtain ⟨i, hi, j, hj, k, hk, he⟩ := hr
      refine ⟨n + ![i, j, k], hns.add ?_, ?_⟩
      · intro a ha
        have hba := bounds_eq_ok (hb a)
        rw [hper, ha] at hba
        simp only [Bool.false_eq_true, if_false] at hba
        fin_cases a
        · have := mem_indexRange.mp hi
          simp only [Fin.zero_eta] at hba
          rw [hba] at this
          exact le_antisymm this.2 this.1
        · have := mem_indexRange.mp hj
          simp only [Fin.mk_one] at hba
          rw [hba] at this
          exact le_antisymm this.2 this.1
        · have := mem_indexRange.mp hk
          simp only [Fin.reduceFinMk] at hba
          rw [hba] at this
          exact le_antisymm this.2 this.1
      · rw [← he, candidate_eq_image, hcell, hred', image_image]
  · have hshift : image cell d k = image cell reduced (k - n) := by
      rw [hred', image_image, add_sub_cancel]
    have hsup : Supported per (k - n) := fun a ha => by simp [hk a ha, hns a ha]
    rw [hshift, ← sqNorm_eq_normSq, ← sqNorm_eq_normSq]
    rcases le_or_gt (sqNorm reduced) (sqNorm (image cell reduced (k - n))) with hlong | hshort
    · rw [hv]
      exact (foldl_keepShorter_le _ _).trans hlong
    · have hle : normSq (image cell reduced (k - n)) ≤
          sqrt (sqNorm reduced) * sqrt (sqNorm reduced) := by
        rw [← sqNorm_eq_normSq]
        exact hshort.le.trans (Lawful.le_sqrt_mul_sqrt _)
      have hmem : ∀ a, (k - n) a ∈ indexRange (b a).1 (b a).2 :=
        fun a => mem_bounds hm hsup hle (hb a)
      rw [hv]
      apply foldl_keepShorter_le_of_mem
      simp only [List.mem_flatMap, List.mem_map]
      refine ⟨_, hmem 0, _, hmem 1, _, hmem 2, ?_⟩
      rw [candidate_eq_image, hcell]
      congr 1
      ext a
      fin_cases a <;> rfl

/-- A vector the search returns is `d - n H` for an integer vector `n` on the periodic axes, and
no other such vector is shorter. -/
theorem fold_nearest {cell : Box K} {per : Fin 3 → Bool} {m : MinimumImage K}
    (hm : MinimumImage.make cell per = .ok m) {d v : Vec3 K} (h : m.fold d = .ok v) :
    ∃ n : Fin 3 → ℤ, (∀ k, per k = false → n k = 0) ∧
      (∀ c, v c = d c - (n 0 * cell 0 c + n 1 * cell 1 c + n 2 * cell 2 c)) ∧
      ∀ n' : Fin 3 → ℤ, (∀ k, per k = false → n' k = 0) → sqNorm v ≤
        sqNorm fun c => d c - (n' 0 * cell 0 c + n' 1 * cell 1 c + n' 2 * cell 2 c) := by
  have rows : ∀ n : Fin 3 → ℤ, image cell d n =
      fun c => d c - (n 0 * cell 0 c + n 1 * cell 1 c + n 2 * cell 2 c) := by
    intro n
    ext c
    simp only [image, Pi.sub_apply, Matrix.vecMul, dotProduct, Fin.sum_univ_three]
  have hnear := fold_isNearest hm h
  obtain ⟨n, hn, hv⟩ := hnear.is_image
  refine ⟨n, hn, fun c => ?_, fun n' hn' => ?_⟩
  · rw [hv, rows]
  · have hle := hnear.le_image n' hn'
    rwa [← sqNorm_eq_normSq, ← sqNorm_eq_normSq, rows] at hle

/-- A sheared cell whose first row repeats. -/
def shearedCell : Box ℚ := !![4, 0, 0; 1, 1, 0; 0, 0, 1]

def shearedImage : MinimumImage ℚ :=
  ⟨shearedCell, cellInverse shearedCell, fun k => sqrt (sqNorm fun r => cellInverse shearedCell r k),
    ![true, false, false]⟩

theorem make_shearedCell :
    MinimumImage.make shearedCell ![true, false, false] = .ok shearedImage := by
  have hroot : sqrt (longDoubleEpsilon : ℚ) = 3037000500 / 2 ^ 63 := by
    refine (ratSqrt_eq (x := longDoubleEpsilon) (s := 3037000499) ?_ ?_).trans ?_ <;>
      decide +kernel
  rw [MinimumImage.make, if_neg (by decide +kernel), hroot, if_neg (by decide +kernel)]
  rfl

theorem candidate_shearedImage (n : ℤ) :
    shearedImage.candidate ![3, 3, 0] ![n, 0, 0] = ![3 - (n : ℚ) * 4, 3, 0] := by
  ext c
  fin_cases c <;> simp [MinimumImage.candidate, shearedImage, shearedCell]

/-- The rounded start is three images away from the nearest one. -/
theorem fold_shearedImage : shearedImage.fold ![3, 3, 0] = .ok ![-1, 3, 0] := by
  have hn : shearedImage.initialIndex ![3, 3, 0] 0 = .ok 0 ∧
      shearedImage.initialIndex ![3, 3, 0] 1 = .ok 0 ∧
      shearedImage.initialIndex ![3, 3, 0] 2 = .ok 0 := by decide +kernel
  have hred : shearedImage.candidate ![3, 3, 0] ![0, 0, 0] = ![3, 3, 0] := by
    simpa using candidate_shearedImage 0
  have hradius : sqrt (sqNorm (![3, 3, 0] : Vec3 ℚ)) = 5 := by
    refine (ratSqrt_eq (x := sqNorm ![3, 3, 0]) (s := 4) ?_ ?_).trans ?_ <;> decide +kernel
  have hdual : shearedImage.dualNorm 0 = 3 / 8 := by
    refine (ratSqrt_eq (x := sqNorm fun r => cellInverse shearedCell r 0) (s := 2) ?_ ?_).trans ?_ <;>
      decide +kernel
  have hfrac : shearedImage.frac ![3, 3, 0] 0 = 0 := by decide +kernel
  have hb : shearedImage.bounds ![3, 3, 0] (sqrt (sqNorm ![3, 3, 0])) 0 = .ok (-3, 3) ∧
      shearedImage.bounds ![3, 3, 0] (sqrt (sqNorm ![3, 3, 0])) 1 = .ok (0, 0) ∧
      shearedImage.bounds ![3, 3, 0] (sqrt (sqNorm ![3, 3, 0])) 2 = .ok (0, 0) := by
    have hper : shearedImage.periodic 0 = true := rfl
    rw [hradius]
    refine ⟨?_, rfl, rfl⟩
    rw [MinimumImage.bounds, if_pos hper, hfrac, hdual]
    decide +kernel
  have hc : checkedCount 1 (-3) 3 = .ok 7 ∧ checkedCount 7 0 0 = .ok 7 := by decide +kernel
  have hr : indexRange (-3) 3 = [-3, -2, -1, 0, 1, 2, 3] ∧ indexRange 0 0 = [0] := by decide +kernel
  have keep : ∀ a b : ℚ, MinimumImage.keepShorter ![a, 3, 0] ![b, 3, 0] =
      if b * b < a * a then ![b, 3, 0] else ![a, 3, 0] := by
    intro a b
    simp [MinimumImage.keepShorter, sqNorm]
  rw [fold_of_bounds hn.1 hn.2.1 hn.2.2 hred hb.1 hb.2.1 hb.2.2 hc.1 hc.2 hc.2, hr.1, hr.2]
  simp only [List.flatMap_cons, List.flatMap_nil, List.map_cons, List.map_nil, List.append_nil,
    List.nil_append, List.cons_append, candidate_shearedImage, List.foldl_cons, List.foldl_nil]
  norm_num [keep]

/-- A displacement whose rounded fractional coordinate is not its nearest image. -/
theorem fold_nearest_sheared : ∃ n : Fin 3 → ℤ,
    (∀ k, (![true, false, false] : Fin 3 → Bool) k = false → n k = 0) ∧
      (∀ c, (![-1, 3, 0] : Vec3 ℚ) c = (![3, 3, 0] : Vec3 ℚ) c -
        (n 0 * shearedCell 0 c + n 1 * shearedCell 1 c + n 2 * shearedCell 2 c)) ∧
      ∀ n' : Fin 3 → ℤ, (∀ k, (![true, false, false] : Fin 3 → Bool) k = false → n' k = 0) →
        sqNorm (![-1, 3, 0] : Vec3 ℚ) ≤ sqNorm fun c => (![3, 3, 0] : Vec3 ℚ) c -
          (n' 0 * shearedCell 0 c + n' 1 * shearedCell 1 c + n' 2 * shearedCell 2 c) :=
  fold_nearest make_shearedCell fold_shearedImage

end Rgpot.Nlist
