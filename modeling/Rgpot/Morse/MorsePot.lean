import Rgpot.PairForce

/-! The shifted or switched Morse potential over the pair-list pool. -/
namespace Rgpot
open Nlist OutwardRoot

/-- The defaults are those of the source's aggregate. -/
structure MorseConfig (K : Type) [Field K] where
  De : K := 0.7102
  a : K := 1.6047
  re : K := 2.8970
  cutoff : K := 9.5
  switch_width : K := 0

/-- The members the force call reads. -/
structure MorsePot (K : Type) where
  De : K
  a : K
  re : K
  cuttOffR : K
  energyCutoff : K
  switch_width : K
  switch : QuinticSwitch K

variable {K : Type} [Field K] [LinearOrder K] [Elementary K]

namespace MorsePot

def make (c : MorseConfig K) : Except Exn (MorsePot K) := do
  let d := 1 - Elementary.exp (-c.a * (c.cutoff - c.re))
  let switch ←
    if c.switch_width ≠ 0 then QuinticSwitch.endingAt c.cutoff c.switch_width else .ok ⟨0, 0⟩
  return ⟨c.De, c.a, c.re, c.cutoff, c.De * d * d - c.De, c.switch_width, switch⟩

variable (pot : MorsePot K) [OutwardRoot K]

def switchedTerm (r2 : K) : PairTerm K :=
  let r := sqrt r2
  let d := 1 - Elementary.exp (-pot.a * (r - pot.re))
  let v := pot.De * d * d - pot.De
  let s := pot.switch.value r
  ⟨v * s.s, (2 * pot.De * pot.a * d * (d - 1) * s.s - v * s.dsdr) / r⟩

def shiftedTerm (r2 : K) : PairTerm K :=
  let r := sqrt r2
  let d := 1 - Elementary.exp (-pot.a * (r - pot.re))
  ⟨pot.De * d * d - pot.De - pot.energyCutoff, 2 * pot.De * pot.a * d * (d - 1) / r⟩

def kernel (r2 : K) : PairTerm K :=
  if pot.switch_width ≠ 0 then pot.switchedTerm r2 else pot.shiftedTerm r2

def law : PairLaw K (Voigt K) := ⟨fun _ _ r2 => pot.kernel r2, accumulatePairStrain⟩

def options : Options K := ⟨pot.cuttOffR, 1, fun _ => true⟩

def forceImpl [FloorRing K] (slots : List (Slot K)) (R : Positions K) (n : ℕ) (box : Box K) :
    Except Exn (LJOut K × Option (CachedPairList K)) :=
  if n < 2 ∨ pot.cuttOffR ≤ 0 then .ok (withoutPairs (cellVolume box), none)
  else stressedForce pot.options pot.law (cellVolume box) slots R n box

end MorsePot
end Rgpot
