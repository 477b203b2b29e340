import Rgpot.Lib.RowMajor
import Rgpot.PairForce

/-! The screened nuclear repulsion with its switching polynomial, and the tables per species pair. -/
namespace Rgpot
open Nlist OutwardRoot

/-- The defaults are those of the source's aggregate. -/
structure ZBLConfig (K : Type) [Field K] where
  cut_inner : K := 2
  cut_global : K := 2.5

/-- Screening and switching coefficients for one ordered pair of species. -/
structure ZblPairCoeffs (K : Type) where
  d1 : K
  d2 : K
  d3 : K
  d4 : K
  zze : K
  sw1 : K
  sw2 : K
  sw3 : K
  sw4 : K
  sw5 : K

/-- `z` holds the atomic numbers, `pairs` the coefficients in rows. -/
structure ZblTables (K : Type) where
  z : List ℤ
  pairs : List (ZblPairCoeffs K)

variable {K : Type} [Field K] [LinearOrder K]

def ZblPairCoeffs.zero : ZblPairCoeffs K := ⟨0, 0, 0, 0, 0, 0, 0, 0, 0, 0⟩

namespace ZBL

def kC1 : K := 0.02817
def kC2 : K := 0.28022
def kC3 : K := 0.50986
def kC4 : K := 0.18175
def kD1 : K := 3.19980
def kD2 : K := 0.94229
def kD3 : K := 0.40290
def kD4 : K := 0.20162
def kPZBL : K := 0.23
def kA0 : K := 0.46850
def kQQR2E : K := 14.399645

variable [Elementary K] (p : ZblPairCoeffs K) (r : K)

/-- Unswitched screened Coulomb energy. -/
def e_zbl : K :=
  let r_inv := 1 / r
  let sum := kC4 * Elementary.exp (-p.d1 * r) + kC3 * Elementary.exp (-p.d2 * r) +
    kC2 * Elementary.exp (-p.d3 * r) + kC1 * Elementary.exp (-p.d4 * r)
  p.zze * sum * r_inv

/-- First derivative of the unswitched energy with respect to `r`. -/
def dzbldr : K :=
  let r_inv := 1 / r
  let e1 := Elementary.exp (-p.d1 * r)
  let e2 := Elementary.exp (-p.d2 * r)
  let e3 := Elementary.exp (-p.d3 * r)
  let e4 := Elementary.exp (-p.d4 * r)
  let sum := kC4 * e1 + kC3 * e2 + kC2 * e3 + kC1 * e4
  let sum_p := -kC4 * p.d1 * e1 - kC3 * p.d2 * e2 - kC2 * p.d3 * e3 - kC1 * p.d4 * e4
  p.zze * (sum_p - sum * r_inv) * r_inv

/-- Second derivative of the unswitched energy with respect to `r`. -/
def d2zbldr2 : K :=
  let r_inv := 1 / r
  let e1 := Elementary.exp (-p.d1 * r)
  let e2 := Elementary.exp (-p.d2 * r)
  let e3 := Elementary.exp (-p.d3 * r)
  let e4 := Elementary.exp (-p.d4 * r)
  let sum := kC4 * e1 + kC3 * e2 + kC2 * e3 + kC1 * e4
  let sum_p := kC4 * e1 * p.d1 + kC3 * e2 * p.d2 + kC2 * e3 * p.d3 + kC1 * e4 * p.d4
  let sum_pp := kC4 * e1 * p.d1 * p.d1 + kC3 * e2 * p.d2 * p.d2 + kC2 * e3 * p.d3 * p.d3 +
    kC1 * e4 * p.d4 * p.d4
  p.zze * (sum_pp + 2 * sum_p * r_inv + 2 * sum * r_inv * r_inv) * r_inv

end ZBL

structure ZBLPot (K : Type) where
  cut_inner : K
  cut_global : K
  cut_inner_sq : K

namespace ZBLPot
open ZBL

def make (c : ZBLConfig K) : Except Exn (ZBLPot K) :=
  if ¬ 0 < c.cut_inner ∨ ¬ c.cut_inner < c.cut_global then
    .error (.invalidArgument "ZBLPot: invalid cutoffs, require 0.0 < cut_inner < cut_global.")
  else .ok ⟨c.cut_inner, c.cut_global, c.cut_inner * c.cut_inner⟩

variable [Elementary K] (pot : ZBLPot K)

/-- The coefficients of two atomic numbers: screening, and the polynomial that ends energy and force
at `cut_global`. -/
def pairCoeffs (zi zj : K) : ZblPairCoeffs K :=
  let a_inv := (Elementary.pow zi kPZBL + Elementary.pow zj kPZBL) / kA0
  let p : ZblPairCoeffs K := { ZblPairCoeffs.zero with
    d1 := kD1 * a_inv
    d2 := kD2 * a_inv
    d3 := kD3 * a_inv
    d4 := kD4 * a_inv
    zze := zi * zj * kQQR2E }
  let tc := pot.cut_global - pot.cut_inner
  let fc := e_zbl p pot.cut_global
  let fcp := dzbldr p pot.cut_global
  let fcpp := d2zbldr2 p pot.cut_global
  let swa := (-3 * fcp + tc * fcpp) / (tc * tc)
  let swb := (2 * fcp - tc * fcpp) / (tc * tc * tc)
  let swc := -fc + tc / 2 * fcp - tc * tc / 12 * fcpp
  { p with sw1 := swa, sw2 := swb, sw3 := swa / 3, sw4 := swb / 4, sw5 := swc }

/-- The pairs `i ≤ j < n` as the loops walk them. -/
def upperPairs (n : ℕ) : List (ℕ × ℕ) :=
  (List.range n).flatMap fun i => (List.range' i (n - i)).map (Prod.mk i)

/-- Both entries of a pair. -/
def setPair {α : Type} (n : ℕ) (f : ℕ → ℕ → α) (pairs : List α) (ij : ℕ × ℕ) : List α :=
  (pairs.set (ij.1 * n + ij.2) (f ij.1 ij.2)).set (ij.2 * n + ij.1) (f ij.1 ij.2)

def buildTables (uniqueZ : List ℤ) : ZblTables K :=
  let n := uniqueZ.length
  { z := uniqueZ
    pairs := (upperPairs n).foldl
      (setPair n fun i j => pot.pairCoeffs (uniqueZ.getD i 0 : ℤ) (uniqueZ.getD j 0 : ℤ))
      (List.replicate (n * n) ZblPairCoeffs.zero) }

/-- Tables that hold what `buildTables` puts there. -/
def Built : Type := { t : ZblTables K // t = pot.buildTables t.z }

def built (uniqueZ : List ℤ) : pot.Built := ⟨pot.buildTables uniqueZ, rfl⟩

/-- The species of a system in ascending order. -/
def uniqueSpecies (atomicNrs : List ℤ) : List ℤ :=
  (atomicNrs.mergeSort fun a b => a ≤ b).destutter (· ≠ ·)

/-- The cached tables where they are for the same species, fresh ones otherwise; either way these are
the cached ones afterwards. -/
def tablesFor (m_tables : Option pot.Built) (atomicNrs : List ℤ) : pot.Built :=
  match m_tables with
  | some t => if t.1.z = uniqueSpecies atomicNrs then t else pot.built (uniqueSpecies atomicNrs)
  | none => pot.built (uniqueSpecies atomicNrs)

/-- `std::lower_bound` on an ascending list. -/
def lowerBound (z : List ℤ) (v : ℤ) : ℕ := z.findIdx fun x => ¬ x < v

/-- The row and column of each atom. -/
def typeIdx (tables : ZblTables K) (atomicNrs : List ℤ) : List ℕ := atomicNrs.map (lowerBound tables.z)

variable [OutwardRoot K]

def pairTerm (p : ZblPairCoeffs K) (r2 : K) : PairTerm K :=
  let r := sqrt r2
  let energy_pair := e_zbl p r + p.sw5
  let dEdr := dzbldr p r
  if r2 > pot.cut_inner_sq then
    let t := r - pot.cut_inner
    ⟨energy_pair + t * t * t * (p.sw3 + p.sw4 * t), -(dEdr + t * t * (p.sw1 + p.sw2 * t)) / r⟩
  else ⟨energy_pair, -dEdr / r⟩

/-- The kernel of a call. -/
def kernel (tables : ZblTables K) (types : List ℕ) (i j : ℕ) (r2 : K) : PairTerm K :=
  let p := tables.pairs.getD (types.getD i 0 * tables.z.length + types.getD j 0) ZblPairCoeffs.zero
  pot.pairTerm p r2

def law (tables : ZblTables K) (types : List ℕ) : PairLaw K (Voigt K) :=
  ⟨pot.kernel tables types, accumulatePairStrain⟩

def options : Options K := ⟨pot.cut_global, 1, fun _ => false⟩

/-- The outputs, the list to store, and the cached tables. -/
def forceImpl [FloorRing K] (m_tables : Option pot.Built) (slots : List (Slot K)) (R : Positions K)
    (atomicNrs : List ℤ) (box : Option (Box K)) :
    Except Exn ((LJOut K × Option (CachedPairList K)) × Option pot.Built) :=
  if atomicNrs.length < 2 then .ok ((withoutPairs (volumeOf box), none), m_tables)
  else
    let tables := pot.tablesFor m_tables atomicNrs
    (stressedForce pot.options (pot.law tables.1 (typeIdx tables.1 atomicNrs)) (volumeOf box) slots R
      atomicNrs.length (boxUse box)).map fun result => (result, some tables)

end ZBLPot

end Rgpot
