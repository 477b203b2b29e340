import Rgpot.Nlist.NearestCalls
import Rgpot.Nlist.GridFits
import Rgpot.Lib.CheckedSort

/-! The int32 rows of a built list, and which systems have too many pairs for them. -/
namespace Rgpot.Nlist
open Rounding CountingSort

/-- `INT32_MAX`. -/
def INT32_MAX : ℕ := 2 ^ 31 - 1

/-- The builds that make a list: the capture that later calls reuse, and the list of one
evaluation. -/
inductive ListBuild where
  | rebuild | buildForEval
  deriving DecidableEq

/-- The CSR build of `finishRebuild` in int32 arithmetic. -/
def rows32 (pairsIJ : List (ℕ × ℕ)) (n : ℕ) : Option ((ℕ → ℕ) × (ℕ → ℕ)) :=
  CheckedSort.sort INT32_MAX pairsIJ n fun _ => 0

/-- Pairs, row counts, row starts and fill cursors are int32 values, and every row range lies within
the pairs. -/
structure FitsInt32 (pairsIJ : List (ℕ × ℕ)) (n : ℕ) : Prop where
  count : pairsIJ.length < 2 ^ 31
  atoms : ∀ p ∈ pairsIJ, p.1 < 2 ^ 31 ∧ p.2 < 2 ^ 31
  rows : ∃ rows nbr, rows32 pairsIJ n = some (rows, nbr) ∧
    ∀ i < n, rows i ≤ rows (i + 1) ∧ rows (i + 1) ≤ pairsIJ.length

theorem fitsInt32_iff {pairsIJ : List (ℕ × ℕ)} {n : ℕ} (hn : n < 2 ^ 31)
    (h : ∀ p ∈ pairsIJ, p ∈ ascendingPairs n) :
    FitsInt32 pairsIJ n ↔ pairsIJ.length < 2 ^ 31 := by
  have hlt : ∀ p ∈ pairsIJ, p.1 < p.2 ∧ p.2 < n := fun p hp => mem_ascendingPairs.mp (h p hp)
  have hkeys : ∀ p ∈ pairsIJ, p.1 < n := fun p hp => (hlt p hp).1.trans (hlt p hp).2
  constructor
  · exact FitsInt32.count
  · intro hcount
    refine ⟨hcount, ?_, ?_⟩
    · intro p hp
      have := hlt p hp
      omega
    · have hsort : rows32 pairsIJ n = _ := CheckedSort.sort_eq hkeys fun _ => 0
      rw [if_pos (by unfold INT32_MAX; omega)] at hsort
      refine ⟨_, _, hsort, ?_⟩
      intro i hi
      have hend := starts_le_length (pairsIJ.map Prod.fst) (show i + 1 ≤ n from hi)
      rw [List.length_map] at hend
      exact ⟨starts_mono _ (Nat.le_succ i) hi, hend⟩

section Builds
variable {K : Type} [Field K] [LinearOrder K] [FloorRing K] [OutwardRoot K]
variable {R : Positions K} {n : ℕ} {box : Box K} {opt : Options K} {b : ListBuild}

namespace ListBuild

def radius (opt : Options K) : ListBuild → K
  | rebuild => opt.cutoff + opt.skin
  | buildForEval => opt.cutoff

def listCutoff (opt : Options K) : ListBuild → ListCutoff K
  | rebuild => .below ((opt.cutoff + opt.skin) * (opt.cutoff + opt.skin))
  | buildForEval => .nextafter (opt.cutoff * opt.cutoff)

def visitCutoff2 (opt : Options K) : ListBuild → K
  | rebuild => opt.cutoff * opt.cutoff
  | buildForEval => -1

/-- The pairs a build records. -/
def pairsIJ (b : ListBuild) (R : Positions K) (n : ℕ) (box : Box K) (opt : Options K) :
    Except Exn (List (ℕ × ℕ)) := do
  let s ← setup n box opt
  let r ← collect s R n box opt (b.radius opt) (b.listCutoff opt) (b.visitCutoff2 opt)
  return r.1

/-- The list a build makes. -/
def build (b : ListBuild) (R : Positions K) (n : ℕ) (box : Box K) (opt : Options K) :
    Except Exn (CachedPairList K) :=
  match b with
  | rebuild => Nlist.rebuild R n box opt
  | buildForEval => Nlist.buildForEval R n box opt

end ListBuild

/-- The image a build folds a separation to; none where the lattice search gives up. -/
def image (box : Box K) (opt : Options K) (d : Vec3 K) : Option (Vec3 K) :=
  if isGeneral box opt then
    match MinimumImage.make box opt.periodic with
    | .ok img => (img.fold d).toOption
    | .error _ => none
  else some (foldDiag (foldWidth box) (foldInv box opt) d)

/-- Atoms `i` and `j` lie within the list radius of a build. -/
def ListBuild.near (b : ListBuild) (R : Positions K) (box : Box K) (opt : Options K) (i j : ℕ) :
    Bool :=
  match image box opt (R j - R i) with
  | some d => (b.listCutoff opt).admits (sqNorm d)
  | none => false

def ListBuild.nearPairs (b : ListBuild) (R : Positions K) (n : ℕ) (box : Box K) (opt : Options K) :
    List (ℕ × ℕ) := listedPairs n (b.near R box opt)

omit [OutwardRoot K] in
theorem finishRebuild_rows (s : BoxSetup K) (pairs : List (ℕ × ℕ)) (rowsSorted codes : Bool) :
    (finishRebuild s pairs R n box opt rowsSorted codes).rows = starts (pairs.map Prod.fst) n := by
  obtain ⟨code, shift, fold, h⟩ := finishRebuild_frame s pairs R n box opt rowsSorted codes
  rw [h]
  rfl

/-- A list's rows are those of the recorded pairs. -/
theorem ListBuild.build_rows {l : CachedPairList K} (h : b.build R n box opt = .ok l) :
    ∃ pairs, b.pairsIJ R n box opt = .ok pairs ∧ l.rows = starts (pairs.map Prod.fst) n := by
  cases b with
  | rebuild =>
    obtain ⟨⟨l, visits⟩, hfused, rfl⟩ := Fallible.map_eq_ok.mp h
    obtain ⟨s, hs, hrest⟩ := Fallible.bind_eq_ok.mp hfused
    obtain ⟨r, hr, hl⟩ := Fallible.bind_eq_ok.mp hrest
    cases hl
    refine ⟨r.1, ?_, finishRebuild_rows _ _ _ _⟩
    exact Fallible.bind_eq_ok.mpr ⟨s, hs, Fallible.bind_eq_ok.mpr ⟨r, hr, rfl⟩⟩
  | buildForEval =>
    obtain ⟨s, hs, hrest⟩ := Fallible.bind_eq_ok.mp h
    obtain ⟨r, hr, hl⟩ := Fallible.bind_eq_ok.mp hrest
    cases hl
    refine ⟨r.1, ?_, finishRebuild_rows _ _ _ _⟩
    exact Fallible.bind_eq_ok.mpr ⟨s, hs, Fallible.bind_eq_ok.mpr ⟨r, hr, rfl⟩⟩

variable [IsStrictOrderedRing K]

omit [FloorRing K] [OutwardRoot K] [IsStrictOrderedRing K] in
theorem ListBuild.admits_le (b : ListBuild) (opt : Options K) (r2 : K)
    (h : (b.listCutoff opt).admits r2 = true) : r2 ≤ b.radius opt * b.radius opt := by
  cases b with
  | rebuild => exact (of_decide_eq_true h : r2 < _).le
  | buildForEval => exact of_decide_eq_true h

/-- Whichever scan a build uses, it records the pairs within its radius once each. -/
theorem ListBuild.pairsIJ_perm {pairs : List (ℕ × ℕ)} (h : b.pairsIJ R n box opt = .ok pairs) :
    pairs.Perm (b.nearPairs R n box opt) := by
  obtain ⟨s, hs, hrest⟩ := Fallible.bind_eq_ok.mp h
  obtain ⟨r, hr, hpairs⟩ := Fallible.bind_eq_ok.mp hrest
  cases hpairs
  by_cases hgen : isGeneral box opt = true
  · unfold setup at hs
    rw [if_pos hgen] at hs
    obtain ⟨img, himg, hset⟩ := Fallible.bind_eq_ok.mp hs
    cases hset
    simp only [collect, hgen, if_true] at hr
    obtain ⟨hfold, hlisted⟩ := generalVisit_eq_ok hr
    have hnear : ∀ i j, i < j → j < n → b.near R box opt i j =
        (b.listCutoff opt).admits (sqNorm (foldedImage img (R j - R i))) := by
      intro i j hij hj
      simp only [ListBuild.near, image, hgen, if_true, himg, hfold i j hij hj, Except.toOption]
    rw [hlisted, ListBuild.nearPairs]
    apply List.Perm.of_eq
    apply List.filter_congr
    rintro ⟨i, j⟩ hij
    obtain ⟨hlt, hj⟩ := mem_ascendingPairs.mp hij
    exact (hnear i j hlt hj).symm
  · rw [Bool.not_eq_true] at hgen
    rw [setup_of_not_general hgen] at hs
    obtain rfl := Except.ok.inj hs
    obtain ⟨visits, hcollect⟩ := collect_eq_scan R n box opt (b.radius opt) (b.listCutoff opt)
      (b.visitCutoff2 opt)
    obtain rfl := Except.ok.inj (hcollect.symm.trans hr)
    have hnear : listedAt R box opt (b.listCutoff opt) = b.near R box opt := by
      funext i j
      rw [listedAt_eq R box opt (b.listCutoff opt) (i, j), ListBuild.near, image, hgen]
      rfl
    rw [ListBuild.nearPairs, ← hnear]
    exact scanPairs_perm (b.admits_le opt)

theorem ListBuild.pairsIJ_ascending {pairs : List (ℕ × ℕ)} (h : b.pairsIJ R n box opt = .ok pairs) :
    ∀ p ∈ pairs, p ∈ ascendingPairs n := by
  intro p hp
  exact (List.mem_filter.mp ((pairsIJ_perm h).mem_iff.mp hp)).1

/-- The indices of a built list are int32 values exactly when fewer than 2^31 pairs of atoms lie within
its radius. -/
theorem pair_indices_fit_iff {l : CachedPairList K} (hn : n < 2 ^ 31)
    (h : b.build R n box opt = .ok l) :
    ∃ pairs, b.pairsIJ R n box opt = .ok pairs ∧ l.rows = starts (pairs.map Prod.fst) n ∧
      (FitsInt32 pairs n ↔ (b.nearPairs R n box opt).length < 2 ^ 31) := by
  obtain ⟨pairs, hpairs, hrows⟩ := b.build_rows h
  refine ⟨pairs, hpairs, hrows, ?_⟩
  rw [fitsInt32_iff hn (ListBuild.pairsIJ_ascending hpairs),
    (ListBuild.pairsIJ_perm hpairs).length_eq]

omit [IsStrictOrderedRing K] in
/-- Up to 65536 atoms no list is too long. -/
theorem nearPairs_length_lt (b : ListBuild) (R : Positions K) (box : Box K) (opt : Options K)
    (hn : n ≤ 65536) : (b.nearPairs R n box opt).length < 2 ^ 31 := by
  have hle : (b.nearPairs R n box opt).length ≤ n * (n - 1) / 2 := by
    rw [← length_ascendingPairs]
    exact List.length_filter_le _ _
  have hprod : n * (n - 1) ≤ 65536 * 65535 := Nat.mul_le_mul hn (by omega)
  omega

end Builds

section Cluster

/-- The cell of a cluster without a box. -/
def freeBox : Box ℚ := Matrix.diagonal fun _ => 1000000

def freeOptions : Options ℚ := ⟨15, 1, fun _ => false⟩

/-- A thread of atoms, 100000 to the Angstrom. -/
def thread : Positions ℚ := fun a => ![a / 100000, 0, 0]

theorem isGeneral_freeBox : isGeneral freeBox freeOptions = false :=
  not_general_of_orthorhombic (by simp [orthorhombic, freeBox])

/-- All pairs of the thread are within the cutoff. -/
theorem thread_near {i j : ℕ} (hij : i < j) (hj : j < 65537) :
    ListBuild.buildForEval.near thread freeBox freeOptions i j = true := by
  have himage : image freeBox freeOptions (thread j - thread i) = some (thread j - thread i) := by
    rw [image, isGeneral_freeBox]
    refine congrArg some ?_
    funext k
    simp [foldDiag, foldInv, freeOptions, foldAxis_zero_inv]
  rw [ListBuild.near, himage]
  have hlo : (0 : ℚ) ≤ i := Nat.cast_nonneg i
  have hle : (i : ℚ) ≤ j := by exact_mod_cast hij.le
  have hhi : (j : ℚ) ≤ 65536 := by exact_mod_cast Nat.lt_succ_iff.mp hj
  have hdist : (j : ℚ) / 100000 - i / 100000 ≤ 15 := by linarith
  have hnonneg : 0 ≤ (j : ℚ) / 100000 - i / 100000 := by linarith
  have hsq : ((j : ℚ) / 100000 - i / 100000) * (j / 100000 - i / 100000) ≤ 15 * 15 :=
    mul_self_le_mul_self hnonneg hdist
  simpa [ListBuild.listCutoff, ListCutoff.admits, sqNorm, thread, freeOptions] using hsq

/-- Two atoms, one pair. -/
theorem pair_indices_fit_iff_two : ∃ pairs,
    ListBuild.buildForEval.pairsIJ thread 2 freeBox freeOptions = .ok pairs ∧ FitsInt32 pairs 2 := by
  obtain ⟨pairs, hpairs, -, hfits⟩ := pair_indices_fit_iff (b := .buildForEval) (by decide)
    (buildForEval_eq_scan (R := thread) (n := 2) isGeneral_freeBox)
  exact ⟨pairs, hpairs, hfits.mpr (nearPairs_length_lt _ _ _ _ (by decide))⟩

/-- The list of 65537 atoms within the cutoff of each other. -/
theorem not_pair_indices_fit :
    ¬ ∀ (b : ListBuild) (R : Positions ℚ) (n : ℕ) (box : Box ℚ) (opt : Options ℚ)
      (l : CachedPairList ℚ), n < 2 ^ 31 → b.build R n box opt = .ok l →
      ∃ pairs, b.pairsIJ R n box opt = .ok pairs ∧ FitsInt32 pairs n := by
  intro h
  obtain ⟨pairs, hpairs, hfits⟩ := h .buildForEval thread 65537 freeBox freeOptions _ (by decide)
    (buildForEval_eq_scan isGeneral_freeBox)
  have hall : ListBuild.buildForEval.nearPairs thread 65537 freeBox freeOptions =
      ascendingPairs 65537 := by
    apply List.filter_eq_self.mpr
    rintro ⟨i, j⟩ hij
    obtain ⟨hlt, hj⟩ := mem_ascendingPairs.mp hij
    exact thread_near hlt hj
  have hlength := (ListBuild.pairsIJ_perm hpairs).length_eq
  rw [hall, length_ascendingPairs] at hlength
  have := hfits.count
  omega

end Cluster
end Rgpot.Nlist
