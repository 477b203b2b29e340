import Rgpot.LennardJones.LJPot

/-! What the pair potentials share: exponentials, the cell of a call without one, and the force call
around a pair law. -/
namespace Rgpot
open Nlist

/-- `std::exp` and `std::pow`. -/
class Elementary (K : Type) where
  exp : K → K
  pow : K → K → K

noncomputable instance realElementary : Elementary ℝ := ⟨Real.exp, fun x y => x ^ y⟩

section Cell
variable {K : Type} [Field K] [LinearOrder K]

/-- The cube that stands for a missing cell. -/
def freeBox : Box K := Matrix.diagonal fun _ => 1000000

/-- The cell a pair scan without periodic images uses. -/
def boxUse (box : Option (Box K)) : Box K :=
  match box with
  | some b => if 0 < b 0 0 ∧ 0 < b 1 1 ∧ 0 < b 2 2 then b else freeBox
  | none => freeBox

/-- The stress is not published without a cell. -/
def volumeOf (box : Option (Box K)) : K := box.elim 0 cellVolume

/-- What a call without pairs leaves. -/
def withoutPairs (volume : K) : LJOut K :=
  let (stress, has_stress) := publishCauchyStress (fun _ => 0) volume
  ⟨0, fun _ => 0, stress, has_stress⟩

end Cell

variable {K : Type} [Field K] [LinearOrder K] [FloorRing K] [OutwardRoot K]

/-- Energy, forces and stress of the pairs the pool finds. -/
def stressedForce (opt : Options K) (law : PairLaw K (Voigt K)) (volume : K) (slots : List (Slot K))
    (R : Positions K) (n : ℕ) (box : Box K) : Except Exn (LJOut K × Option (CachedPairList K)) := do
  let (sums, stored) ← accumulateWith (lookup slots R n box opt).1 R n box opt law (fun _ => 0)
    (fun _ => 0)
  let (stress, has_stress) := publishCauchyStress sums.obs volume
  return (⟨sums.energy, sums.F, stress, has_stress⟩, stored)

end Rgpot
