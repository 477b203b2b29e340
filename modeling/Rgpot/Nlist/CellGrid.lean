import Rgpot.Nlist.Basic
import Rgpot.Lib.CountingSort

/-! The linked-cell grid and the scan over a cell and its half stencil. -/
namespace Rgpot.Nlist
open Rounding CountingSort

def kMinCellsForGrid : ℕ := 64

/-- The 13 neighbours after a cell in (z, y, x) lexicographic order. -/
def kHalfStencil : List (Fin 3 → ℤ) :=
  [![1, 0, 0], ![-1, 1, 0], ![0, 1, 0], ![1, 1, 0], ![-1, -1, 1], ![0, -1, 1], ![1, -1, 1],
   ![-1, 0, 1], ![0, 0, 1], ![1, 0, 1], ![-1, 1, 1], ![0, 1, 1], ![1, 1, 1]]

structure CellGrid where
  nc : Fin 3 → ℕ
  wrap : Fin 3 → Bool
  start : ℕ → ℕ
  atoms : ℕ → ℕ

def linearIndex (nc c : Fin 3 → ℕ) : ℕ := (c 2 * nc 1 + c 1) * nc 0 + c 0

/-- One coordinate of a cell moved by a stencil offset. -/
def shiftAxis (m : ℕ) (wrap : Bool) (c : ℕ) (o : ℤ) : Option ℕ :=
  if wrap then some ((c + o + m) % m).toNat
  else if c + o < 0 ∨ m ≤ c + o then none
  else some (c + o).toNat

/-- The shifted cell, unless the shift leaves a free axis. -/
def shiftCell (nc : Fin 3 → ℕ) (wrap : Fin 3 → Bool) (c : Fin 3 → ℕ) (o : Fin 3 → ℤ) :
    Option (Fin 3 → ℕ) := do
  let x ← shiftAxis (nc 0) (wrap 0) (c 0) (o 0)
  let y ← shiftAxis (nc 1) (wrap 1) (c 1) (o 1)
  let z ← shiftAxis (nc 2) (wrap 2) (c 2) (o 2)
  return ![x, y, z]

/-- `neighbour`; `none` stands for `-1`. -/
def neighbour (nc : Fin 3 → ℕ) (wrap : Fin 3 → Bool) (c : Fin 3 → ℕ) (o : Fin 3 → ℤ) : Option ℕ :=
  (shiftCell nc wrap c o).map (linearIndex nc)

/-- All cells, the first coordinate fastest. -/
def cells (nc : Fin 3 → ℕ) : List (Fin 3 → ℕ) :=
  (List.range (nc 2)).flatMap fun z => (List.range (nc 1)).flatMap fun y =>
    (List.range (nc 0)).map fun x => ![x, y, z]

section Build
variable {K : Type} [Field K] [LinearOrder K]

/-- Whether the pair tests of this occupancy stay below half the brute-force ones;
`count` is indexed one past the cell. -/
def pays (nc : Fin 3 → ℕ) (wrap : Fin 3 → Bool) (count : ℕ → ℕ) (n ncells : ℕ) : Prop :=
  let brute : ℚ := 1 / 2 * n * (n - 1)
  let tests : ℚ := 14 * ncells + ((cells nc).map fun c =>
    let here : ℚ := count (linearIndex nc c + 1)
    if here = 0 then 0 else 1 / 2 * here * (here - 1) + (kHalfStencil.map fun o =>
      match neighbour nc wrap c o with
      | none => 0
      | some d => here * count (d + 1)).sum).sum
  tests < 1 / 2 * brute

instance (nc : Fin 3 → ℕ) (wrap : Fin 3 → Bool) (count : ℕ → ℕ) (n ncells : ℕ) :
    Decidable (pays nc wrap count n ncells) :=
  inferInstanceAs (Decidable (_ < _))

def axisMin (R : Positions K) (n : ℕ) (k : Fin 3) : K :=
  (List.range' 1 (n - 1)).foldl (fun m a => min m (R a k)) (R 0 k)

def axisMax (R : Positions K) (n : ℕ) (k : Fin 3) : K :=
  (List.range' 1 (n - 1)).foldl (fun m a => max m (R a k)) (R 0 k)

/-- The lower end and the length of one axis: the period, or the bounding box. -/
def axisExtent (R : Positions K) (n : ℕ) (w inv : Vec3 K) (k : Fin 3) : K × K :=
  if inv k ≠ 0 then (0, w k) else (axisMin R n k, axisMax R n k - axisMin R n k)

variable [FloorRing K]

/-- As many cells as fit at width `rl`, from 1 to 1024. -/
def axisCells (extent rl : K) : ℕ :=
  let fit := ⌊extent / rl⌋
  if 1 ≤ fit then (min fit 1024).toNat else 1

/-- The cell coordinate of the scaled coordinate `t`, the last cell taking the upper end. -/
def cellCoord (t : K) (m : ℕ) : ℕ :=
  if 0 ≤ t then if t < ((m - 1 : ℕ) : K) then (trunc t).toNat else m - 1 else 0

/-- The cell coordinate of `x` along an axis of `m` cells. -/
def axisCell (wrap : Bool) (lo extent inv : K) (m : ℕ) (x : K) : ℕ :=
  if wrap then cellCoord ((x * inv - ⌊x * inv⌋) * m) m
  else cellCoord ((x - lo) * (m / if 0 < extent then extent else 1)) m

def gridCells (R : Positions K) (n : ℕ) (w inv : Vec3 K) (rl : K) (k : Fin 3) : ℕ :=
  axisCells (axisExtent R n w inv k).2 rl

def cellOf (R : Positions K) (n : ℕ) (w inv : Vec3 K) (rl : K) (a : ℕ) : Fin 3 → ℕ := fun k =>
  axisCell (inv k ≠ 0) (axisExtent R n w inv k).1 (axisExtent R n w inv k).2 (inv k)
    (gridCells R n w inv rl k) (R a k)

/-- The grid of one configuration; `none` where the caller falls back to the brute scan. -/
def CellGrid.build (R : Positions K) (n : ℕ) (w inv : Vec3 K) (rl : K) : Option CellGrid :=
  let wrap : Fin 3 → Bool := fun k => inv k ≠ 0
  let nc := gridCells R n w inv rl
  let ncells := nc 0 * nc 1 * nc 2
  if ¬ 0 < rl ∨ n < 2 then none
  else if ∃ k, wrap k ∧ nc k < 3 then none
  else if ncells < kMinCellsForGrid ∨ 8 * n + 64 < ncells then none
  else
    let items := (List.range n).map fun a => (linearIndex nc (cellOf R n w inv rl a), a)
    let count := countKeys (items.map Prod.fst)
    if ¬ pays nc wrap count n ncells then none
    else
      let start := prefixSum count ncells
      some ⟨nc, wrap, start, (place start (fun _ => 0) items).2⟩

end Build

namespace CellGrid
variable (g : CellGrid)

def row (c : ℕ) : List ℕ := slice g.start g.atoms c

/-- The tests inside one cell, `p < q`. -/
def cellPairs (c : ℕ) : List (ℕ × ℕ) :=
  (List.range' (g.start c) (g.start (c + 1) - g.start c)).flatMap fun p =>
    (List.range' (p + 1) (g.start (c + 1) - (p + 1))).map fun q => (g.atoms p, g.atoms q)

/-- The tests of one cell against a neighbour. -/
def stencilPairs (c d : ℕ) : List (ℕ × ℕ) :=
  (g.row c).flatMap fun i => (g.row d).map (Prod.mk i)

/-- Every `test(i, j)` of the scan, in its order. -/
def tests : List (ℕ × ℕ) :=
  (cells g.nc).flatMap fun c =>
    let l := linearIndex g.nc c
    if g.start l = g.start (l + 1) then []
    else g.cellPairs l ++ kHalfStencil.flatMap fun o =>
      match neighbour g.nc g.wrap c o with
      | none => []
      | some d => g.stencilPairs l d

end CellGrid

section Visit
variable {K : Type} [Field K] [LinearOrder K] [FloorRing K]

/-- `test(i, j)`, reported with the smaller index first. -/
def cellTest (R : Positions K) (w inv : Vec3 K) (p : ℕ × ℕ) : Visit K :=
  let d := foldDiag w inv (R p.2 - R p.1)
  if p.2 < p.1 then ⟨p.2, p.1, -d, sqNorm d⟩ else ⟨p.1, p.2, d, sqNorm d⟩

/-- Linked-cell counterpart of `bruteForceVisit`. -/
def cellVisit (g : CellGrid) (R : Positions K) (w inv : Vec3 K) (listCutoff : ListCutoff K)
    (visitCutoff2 : K) : List (ℕ × ℕ) × List (Visit K) :=
  let listed := (g.tests.map (cellTest R w inv)).filter fun v => listCutoff.admits v.r2
  (listed.map fun v => (v.i, v.j), listed.filter fun v => v.r2 ≤ visitCutoff2)

end Visit
end Rgpot.Nlist
