import Rgpot.Lib.Lattice
import Rgpot.Lib.Root
import Rgpot.ForceStructs

/-! Vectors, options and the fused brute-force scan shared by the pair-list code,
in exact arithmetic over any ordered field with a floor. -/
namespace Rgpot

namespace Nlist
open Rounding

abbrev Vec3 (K : Type) := Fin 3 → K

/-- Row-major 3×3 cell: `box r c` is `box[3 * r + c]`. -/
abbrev Box (K : Type) := Matrix (Fin 3) (Fin 3) K

/-- Interleaved coordinates: `R a k` is `R[3 * a + k]`. -/
abbrev Positions (K : Type) := ℕ → Vec3 K

/-- One call of a pair visitor, `fn(i, j, dx, dy, dz, r2)`. -/
structure Visit (K : Type) where
  i : ℕ
  j : ℕ
  d : Vec3 K
  r2 : K
  deriving DecidableEq

structure Options (K : Type) where
  cutoff : K
  skin : K
  periodic : Fin 3 → Bool
  deriving DecidableEq

/-- The list cutoff a scan compares `r2 <` with: a number, the double after a number
(exactly: at most the number), or `HUGE_VAL`. -/
inductive ListCutoff (K : Type) where
  | below (c2 : K)
  | nextafter (c2 : K)
  | huge

variable {K : Type} [Field K] [LinearOrder K]

def sqNorm (d : Vec3 K) : K := d 0 * d 0 + d 1 * d 1 + d 2 * d 2

def ListCutoff.admits (r2 : K) : ListCutoff K → Bool
  | .below c2 => r2 < c2
  | .nextafter c2 => r2 ≤ c2
  | .huge => true

/-- All `i < j < n`, ascending, as the double loops walk them. -/
def ascendingPairs (n : ℕ) : List (ℕ × ℕ) :=
  (List.range n).flatMap fun i => (List.range' (i + 1) (n - (i + 1))).map (Prod.mk i)

section Fold
variable [FloorRing K]

/-- Fold each dimension by `w k` when `inv k` is nonzero. -/
def foldDiag (w inv d : Vec3 K) : Vec3 K := fun k => foldAxis (w k) (inv k) (d k)

/-- The record of the pair `(i, j)` with the folded `r_j - r_i`. -/
def scanVisit (R : Positions K) (w inv : Vec3 K) (p : ℕ × ℕ) : Visit K :=
  let d := foldDiag w inv (R p.2 - R p.1)
  ⟨p.1, p.2, d, sqNorm d⟩

/-- Pairs within the list cutoff, and those of them within the visit cutoff. -/
def bruteForceVisit (R : Positions K) (n : ℕ) (w inv : Vec3 K) (listCutoff : ListCutoff K)
    (visitCutoff2 : K) : List (ℕ × ℕ) × List (Visit K) :=
  let listed := ((ascendingPairs n).map (scanVisit R w inv)).filter
    fun v => listCutoff.admits v.r2
  (listed.map fun v => (v.i, v.j), listed.filter fun v => v.r2 ≤ visitCutoff2)

def bruteForceVisitOnly (R : Positions K) (n : ℕ) (w inv : Vec3 K) (visitCutoff2 : K) :
    List (Visit K) :=
  ((ascendingPairs n).map (scanVisit R w inv)).filter fun v => v.r2 ≤ visitCutoff2

end Fold

omit [LinearOrder K] in
theorem sqNorm_eq_normSq (d : Vec3 K) : sqNorm d = Lattice.normSq d := by
  simp [sqNorm, Lattice.normSq, dotProduct, Fin.sum_univ_three]

omit [LinearOrder K] in
@[simp] theorem sqNorm_neg (d : Vec3 K) : sqNorm (-d) = sqNorm d := by
  simp [sqNorm]

theorem mem_ascendingPairs {n i j : ℕ} : (i, j) ∈ ascendingPairs n ↔ i < j ∧ j < n := by
  simp only [ascendingPairs, List.mem_flatMap, List.mem_range, List.mem_map, List.mem_range'_1,
    Prod.mk.injEq]
  constructor
  · rintro ⟨a, ha, b, hb, rfl, rfl⟩
    omega
  · rintro ⟨hij, hj⟩
    exact ⟨i, by omega, j, by omega, rfl, rfl⟩

theorem ascendingPairs_nodup (n : ℕ) : (ascendingPairs n).Nodup := by
  rw [ascendingPairs, List.nodup_flatMap]
  constructor
  · intro i _
    exact List.Nodup.map (Prod.mk_right_injective i) List.nodup_range'
  · apply List.Pairwise.imp _ List.nodup_range
    intro a b hab p hpa hpb
    simp only [List.mem_map] at hpa hpb
    obtain ⟨_, _, rfl⟩ := hpa
    obtain ⟨_, _, hb⟩ := hpb
    exact hab (congrArg Prod.fst hb).symm

variable [FloorRing K] [IsStrictOrderedRing K]

theorem foldDiag_neg (w inv d : Vec3 K) : foldDiag w inv (-d) = -foldDiag w inv d := by
  ext k
  simp [foldDiag, foldAxis_neg]

end Nlist
end Rgpot
