import Rgpot.Nlist.HistoryIndependence

/-! The shifted or switched 12-6 Lennard-Jones potential over the pair-list pool. -/
namespace Rgpot
open Nlist OutwardRoot

/-- The defaults are those of the source's aggregate. -/
structure LJConfig (K : Type) [Field K] where
  u0 : K := 1
  cutoff : K := 15
  psi : K := 1
  switch_width : K := 0

structure QuinticSwitch (K : Type) where
  r_on : K
  inv_width : K

/-- `S(t(r))` and `dS/dr`. -/
structure SwitchValue (K : Type) where
  s : K
  dsdr : K

variable {K : Type} [Field K] [LinearOrder K]

namespace QuinticSwitch

def endingAt (cutoff width : K) : Except Exn (QuinticSwitch K) :=
  if ¬ 0 < width ∨ ¬ width ≤ cutoff then
    .error (.invalidArgument "QuinticSwitch: switch width must satisfy 0 < width <= cutoff")
  else .ok ⟨cutoff - width, 1 / width⟩

def value (sw : QuinticSwitch K) (r : K) : SwitchValue K :=
  let t := min (max ((r - sw.r_on) * sw.inv_width) 0) 1
  let t2 := t * t
  let omt := 1 - t
  ⟨1 + t2 * t * (-10 + t * (15 - 6 * t)), -30 * t2 * omt * omt * sw.inv_width⟩

end QuinticSwitch

/-- The members the force call reads. -/
structure LJPot (K : Type) where
  u0 : K
  cuttOffR : K
  psi : K
  cuttOffU : K
  switch_width : K
  switch : QuinticSwitch K

def LJPot.make (c : LJConfig K) : Except Exn (LJPot K) := do
  let a := (c.psi / c.cutoff) ^ 6
  let switch ←
    if c.switch_width ≠ 0 then QuinticSwitch.endingAt c.cutoff c.switch_width else .ok ⟨0, 0⟩
  return ⟨c.u0, c.cutoff, c.psi, 4 * c.u0 * a * (a - 1), c.switch_width, switch⟩

/-- The six Voigt components xx, yy, zz, yz, xz, xy. -/
abbrev Voigt (K : Type) := Fin 6 → K

def cellVolume (box : Box K) : K :=
  |box 0 0 * (box 1 1 * box 2 2 - box 1 2 * box 2 1) -
    box 0 1 * (box 1 0 * box 2 2 - box 1 2 * box 2 0) +
    box 0 2 * (box 1 0 * box 2 1 - box 1 1 * box 2 0)|

def accumulatePairStrain (acc : Voigt K) (fscale : K) (d : Vec3 K) : Voigt K :=
  let c := -fscale
  ![acc 0 + c * d 0 * d 0, acc 1 + c * d 1 * d 1, acc 2 + c * d 2 * d 2,
    acc 3 + c * d 1 * d 2, acc 4 + c * d 0 * d 2, acc 5 + c * d 0 * d 1]

/-- The row-major stress and `has_stress`. -/
def publishCauchyStress (acc : Voigt K) (volume : K) : (Fin 9 → K) × Bool :=
  if ¬ 0 < volume then (fun _ => 0, false)
  else
    let s := 1 / volume
    let xx := acc 0 * s
    let yy := acc 1 * s
    let zz := acc 2 * s
    let yz := acc 3 * s
    let xz := acc 4 * s
    let xy := acc 5 * s
    (![xx, xy, xz, xy, yy, yz, xz, yz, zz], true)

/-- What a force call writes; `F a` is the row of atom `a`. -/
structure LJOut (K : Type) where
  energy : K
  F : ℕ → Vec3 K
  stress : Fin 9 → K
  has_stress : Bool

namespace LJPot
variable (pot : LJPot K)

/-- The unshifted term `b (a - 1)` and `6 b / r² (2 a - 1)`. -/
def bareTerm (r2 : K) : PairTerm K :=
  let invR2 := 1 / r2
  let sr2 := pot.psi * pot.psi * invR2
  let a := sr2 * sr2 * sr2
  let b := 4 * pot.u0 * a
  ⟨b * (a - 1), 6 * b * invR2 * (2 * a - 1)⟩

def shiftedTerm (r2 : K) : PairTerm K :=
  let t := pot.bareTerm r2
  ⟨t.energy - pot.cuttOffU, t.fscale⟩

variable [OutwardRoot K]

def switchedTerm (r2 : K) : PairTerm K :=
  let t := pot.bareTerm r2
  let r := sqrt r2
  let s := pot.switch.value r
  ⟨t.energy * s.s, t.fscale * s.s - t.energy * s.dsdr / r⟩

def kernel (r2 : K) : PairTerm K :=
  if pot.switch_width ≠ 0 then pot.switchedTerm r2 else pot.shiftedTerm r2

def law : PairLaw K (Voigt K) := ⟨fun _ _ r2 => pot.kernel r2, accumulatePairStrain⟩

/-- The pool options of a call: the defaults, with the potential's cutoff. -/
def options : Options K := ⟨pot.cuttOffR, 1, fun _ => true⟩

variable [FloorRing K]

/-- `forceImpl` on the slots its lookup sees, with the list it leaves to store. -/
def forceImpl (slots : List (Slot K)) (R : Positions K) (n : ℕ) (box : Box K) :
    Except Exn (LJOut K × Option (CachedPairList K)) :=
  let volume := cellVolume box
  if n < 2 ∨ pot.cuttOffR ≤ 0 then
    let (stress, has_stress) := publishCauchyStress (fun _ => 0) volume
    .ok (⟨0, fun _ => 0, stress, has_stress⟩, none)
  else do
    let (sums, stored) ← accumulateWith (lookup slots R n box pot.options).1 R n box pot.options
      pot.law (fun _ => 0) (fun _ => 0)
    let (stress, has_stress) := publishCauchyStress sums.obs volume
    return (⟨sums.energy, sums.F, stress, has_stress⟩, stored)

end LJPot
end Rgpot
