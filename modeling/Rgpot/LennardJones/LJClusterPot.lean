import Rgpot.PairForce

/-! The Lennard-Jones potential of a cluster without periodic images. -/
namespace Rgpot
open Nlist OutwardRoot

/-- The defaults are those of the source's aggregate. -/
structure LJClusterConfig (K : Type) [Field K] where
  u0 : K := 1
  cutoff : K := 15
  psi : K := 1
  switch_width : K := 0

/-- The members are those of `LJPot`. -/
structure LJClusterPot (K : Type) extends LJPot K

variable {K : Type} [Field K] [LinearOrder K]

namespace LJClusterPot

def make (c : LJClusterConfig K) : Except Exn (LJClusterPot K) := do
  let a := (c.psi / c.cutoff) ^ 6
  let switch ←
    if c.switch_width ≠ 0 then QuinticSwitch.endingAt c.cutoff c.switch_width else .ok ⟨0, 0⟩
  return ⟨⟨c.u0, c.cutoff, c.psi, 4 * c.u0 * a * (a - 1), c.switch_width, switch⟩⟩

variable (pot : LJClusterPot K) [OutwardRoot K]

/-- The kernel of `LJPot`. -/
def kernel (r2 : K) : PairTerm K := pot.toLJPot.kernel r2

/-- Pairs are not observed. -/
def law : PairLaw K Unit := ⟨fun _ _ r2 => pot.kernel r2, fun _ _ _ => ()⟩

def options : Options K := ⟨if 0 < pot.cuttOffR then pot.cuttOffR else 1000000, 1, fun _ => false⟩

variable [FloorRing K]

/-- Energy and forces; no stress is written. -/
def forceImpl (slots : List (Slot K)) (R : Positions K) (n : ℕ) (box : Option (Box K)) :
    Except Exn ((K × (ℕ → Vec3 K)) × Option (CachedPairList K)) :=
  if n < 2 then .ok ((0, fun _ => 0), none)
  else do
    let (sums, stored) ← accumulateWith (lookup slots R n (boxUse box) pot.options).1 R n (boxUse box)
      pot.options pot.law (fun _ => 0) ()
    return ((sums.energy, sums.F), stored)

end LJClusterPot
end Rgpot
