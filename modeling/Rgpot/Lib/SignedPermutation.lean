import Mathlib.GroupTheory.Perm.Sign
import Mathlib.Data.Matrix.Mul
import Mathlib.Data.List.Perm.Subperm
import Mathlib.Algebra.BigOperators.Group.List.Basic

/-! Signed permutations as matrices, and sums over a list that is closed under multiplication. -/
namespace Rgpot

/-- Row `i` has `sign i` in the column `perm i`. -/
structure SignedPerm (ι : Type) where
  perm : Equiv.Perm ι
  sign : ι → ℤˣ

namespace SignedPerm
variable {ι : Type} [Fintype ι] [DecidableEq ι] {s t : SignedPerm ι}

def mul (s t : SignedPerm ι) : SignedPerm ι :=
  ⟨s.perm.trans t.perm, fun i => s.sign i * t.sign (s.perm i)⟩

def toMatrix (s : SignedPerm ι) : Matrix ι ι ℤ :=
  fun i j => if s.perm i = j then (s.sign i : ℤ) else 0

def parity (s : SignedPerm ι) : ℤˣ := Equiv.Perm.sign s.perm

/-- The product of the signs: one when their minuses are even in number. -/
def flips (s : SignedPerm ι) : ℤˣ := ∏ i, s.sign i

theorem toMatrix_mul (s t : SignedPerm ι) : (s.mul t).toMatrix = s.toMatrix * t.toMatrix := by
  ext i j
  rw [Matrix.mul_apply, Finset.sum_eq_single (s.perm i)]
  · simp only [toMatrix, mul, Equiv.trans_apply, if_true, mul_ite, mul_zero, Units.val_mul]
    rfl
  · intro k _ hk
    simp [toMatrix, hk.symm]
  · simp

theorem toMatrix_mul_transpose (s : SignedPerm ι) : s.toMatrix * s.toMatrix.transpose = 1 := by
  ext i j
  by_cases h : i = j
  · subst h
    simp [toMatrix, Matrix.mul_apply]
  · simp [toMatrix, Matrix.mul_apply, h]

theorem parity_mul (s t : SignedPerm ι) : (s.mul t).parity = s.parity * t.parity := by
  rw [parity, mul, Equiv.Perm.sign_trans, mul_comm]
  rfl

omit [DecidableEq ι] in
theorem flips_mul (s t : SignedPerm ι) : (s.mul t).flips = s.flips * t.flips := by
  simp only [flips, mul, Finset.prod_mul_distrib]
  rw [Equiv.prod_comp s.perm t.sign]

end SignedPerm

section Lists
variable {M A : Type} [Monoid M] {L : List M} {Q : M}

/-- A finite group as a list: each element once, products listed, and each with a right inverse. -/
structure IsGroupList (L : List M) : Prop where
  nodup : L.Nodup
  mul_mem : ∀ R ∈ L, ∀ Q ∈ L, R * Q ∈ L
  cancel : ∀ Q ∈ L, ∃ Q', Q * Q' = 1

/-- A right factor only permutes the list. -/
theorem IsGroupList.map_mul_perm (h : IsGroupList L) (hQ : Q ∈ L) :
    (L.map fun R => R * Q).Perm L := by
  obtain ⟨Q', hQ'⟩ := h.cancel Q hQ
  have hinj : Function.Injective fun R : M => R * Q := by
    intro R S hRS
    have hcancel := congrArg (fun T => T * Q') hRS
    simpa [mul_assoc, hQ'] using hcancel
  have hsubset : L.map (fun R => R * Q) ⊆ L := by
    intro R hR
    obtain ⟨S, hS, rfl⟩ := List.mem_map.mp hR
    exact h.mul_mem S hS Q hQ
  refine List.Subperm.perm_of_length_le ((h.nodup.map hinj).subperm hsubset) ?_
  rw [List.length_map]

/-- A sum over the list does not see a right factor. -/
theorem IsGroupList.sum_mul_right [AddCommMonoid A] (h : IsGroupList L) (hQ : Q ∈ L) (f : M → A) :
    (L.map fun R => f (R * Q)).sum = (L.map f).sum := by
  have hperm := (h.map_mul_perm hQ).map f
  rw [List.map_map] at hperm
  exact hperm.sum_eq

end Lists

end Rgpot
