import Rgpot.Nlist.MinimumImage
import Rgpot.Nlist.CellGrid

/-! The Verlet-skin pair list: builds, validity test and evaluation loops. Atom indices and
list positions are natural numbers, and a pair scan is the list of its reports. -/
namespace Rgpot.Nlist
open Rounding CountingSort

inductive FoldMode where
  | none | round | coded | general
  deriving DecidableEq, Repr

/-- A radial kernel's energy and `fscale = -V'(r) / r`. -/
structure PairTerm (K : Type) where
  energy : K
  fscale : K
  deriving DecidableEq

structure CachedPairList (K : Type) where
  /-- CSR row starts, `n + 1` entries. -/
  rows : ℕ → ℕ
  /-- Partner of each candidate. -/
  nbr : ℕ → ℕ
  /-- Image code per candidate. -/
  code : ℕ → ℕ
  shift : ℕ → Vec3 K
  Rref : Positions K
  boxref : Box K
  micInv : Vec3 K
  opt : Options K
  n : ℕ
  fold : FoldMode
  generalImage : MinimumImage K
  general : Bool
  mic : Bool
  phantom : Bool
  complete : Bool
  built : Bool

/-- What `setup` decides about a box. -/
structure BoxSetup (K : Type) where
  general : Bool
  generalImage : MinimumImage K
  mic : Bool

variable {K : Type} [Field K] [LinearOrder K] [FloorRing K] [OutwardRoot K]

def orthorhombic (box : Box K) : Bool :=
  box 0 1 = 0 ∧ box 0 2 = 0 ∧ box 1 0 = 0 ∧ box 1 2 = 0 ∧ box 2 0 = 0 ∧ box 2 1 = 0

/-- Cells per axis at the list cutoff, at most 1024. -/
def fittingCells (box : Box K) (rl : K) (k : Fin 3) : ℕ := (min ⌊box k k / rl⌋ 1024).toNat

/-- Every axis is periodic and wide enough for the grid whatever the positions are. -/
def cellGridFits (n : ℕ) (box : Box K) (opt : Options K) : Bool :=
  let rl := opt.cutoff + opt.skin
  let ncells := fittingCells box rl 0 * fittingCells box rl 1 * fittingCells box rl 2
  (∀ k, opt.periodic k = true ∧ 0 < rl ∧ 3 ≤ ⌊box k k / rl⌋) ∧
    kMinCellsForGrid ≤ ncells ∧ ncells ≤ 8 * n + 64

/-- A nonorthogonal cell with a periodic axis. -/
def isGeneral (box : Box K) (opt : Options K) : Bool :=
  !orthorhombic box && (opt.periodic 0 || opt.periodic 1 || opt.periodic 2)

/-- The cacheable boxes: the cutoff is within half of each periodic width. -/
def isMic (n : ℕ) (box : Box K) (opt : Options K) : Bool :=
  orthorhombic box && (n ≤ 20000 || cellGridFits n box opt) &&
    !decide (∃ k, opt.periodic k = true ∧ 1 / 2 * box k k < opt.cutoff)

def setup (n : ℕ) (box : Box K) (opt : Options K) : Except Exn (BoxSetup K) := do
  let generalImage ←
    if isGeneral box opt then MinimumImage.make box opt.periodic else .ok MinimumImage.empty
  return ⟨isGeneral box opt, generalImage, isMic n box opt⟩

def foldWidth (box : Box K) : Vec3 K := fun k => box k k

/-- The inverse widths of `fold_params`, zero where nothing is folded. -/
def foldInv (box : Box K) (opt : Options K) : Vec3 K := fun k =>
  if opt.periodic k = true ∧ box k k ≠ 0 then 1 / box k k else 0

/-- The lattice scan over `i < j`, folding `r_j - r_i`. -/
def generalVisit (img : MinimumImage K) (R : Positions K) (n : ℕ) (listCutoff : ListCutoff K)
    (visitCutoff2 : K) : Except Exn (List (ℕ × ℕ) × List (Visit K)) := do
  let vs ← (ascendingPairs n).mapM fun p => do
    let d ← img.fold (R p.2 - R p.1)
    return (⟨p.1, p.2, d, sqNorm d⟩ : Visit K)
  return ((vs.filter fun v => listCutoff.admits v.r2).map fun v => (v.i, v.j),
    vs.filter fun v => v.r2 ≤ visitCutoff2)

/-- The visitor receives `r_i - r_j`. -/
def flip (v : Visit K) : Visit K := { v with d := -v.d }

section Codes

/-- The rounded quotients of one candidate along the three axes. -/
def imageQuotient (ref : Positions K) (micInv : Vec3 K) (i j : ℕ) : Fin 3 → ℤ := fun k =>
  halfAway ((ref i k - ref j k) * micInv k)

/-- The base-3 code of the quotients, none when one lies outside -1, 0, 1. -/
def imageCode (m : Fin 3 → ℤ) : Option ℕ :=
  if ∃ k, m k < -1 ∨ 1 < m k then none
  else some ((m 0 + 1) + (m 1 + 1) * 3 + (m 2 + 1) * 9).toNat

/-- The 27 shifts, `kk * width` along each axis. -/
def imageShift (box : Box K) (c : ℕ) : Vec3 K :=
  ![(((c % 3 : ℕ) - 1 : ℤ) : K) * box 0 0, (((c / 3 % 3 : ℕ) - 1 : ℤ) : K) * box 1 1,
    (((c / 9 : ℕ) - 1 : ℤ) : K) * box 2 2]

/-- All `(i, p)` with `p` in row `i`, as the nested loops walk them. -/
def entries (rows : ℕ → ℕ) (n : ℕ) : List (ℕ × ℕ) :=
  (List.range n).flatMap fun i =>
    (List.range' (rows i) (rows (i + 1) - rows i)).map (Prod.mk i)

/-- `buildImageCodes`: the fold of the evaluation loops, with codes and shifts when coded. -/
def buildImageCodes (l : CachedPairList K) : CachedPairList K :=
  let reach := l.opt.cutoff + l.opt.skin
  if ∀ k, l.micInv k = 0 then { l with code := fun _ => 0, fold := .none }
  else if l.complete then { l with code := fun _ => 0, fold := .round }
  else if ∃ k, l.micInv k ≠ 0 ∧ ¬ reach < 1 / 2 * l.boxref k k then
    { l with code := fun _ => 0, fold := .round }
  else
    let codeOf e := imageCode (imageQuotient l.Rref l.micInv e.1 (l.nbr e.2))
    let es := entries l.rows l.n
    if es.all fun e => (codeOf e).isSome then
      { l with
        shift := imageShift l.boxref
        code := es.foldl (fun code e => Function.update code e.2 ((codeOf e).getD 0)) fun _ => 0
        fold := .coded }
    else { l with code := fun _ => 0, shift := imageShift l.boxref, fold := .round }

end Codes

/-- Overwrite the positions from `s` on with a list. -/
def writeRow (out : ℕ → ℕ) (s : ℕ) (row : List ℕ) : ℕ → ℕ := fun p =>
  if s ≤ p then row.getD (p - s) (out p) else out p

/-- Sort the partners of each row. -/
def sortRows (rows nbr : ℕ → ℕ) (n : ℕ) : ℕ → ℕ :=
  (List.range n).foldl
    (fun out i => writeRow out (rows i) ((slice rows out i).insertionSort (· ≤ ·))) nbr

/-- The scanned pairs as sorted rows, with the stamp of the build. -/
def finishRows (s : BoxSetup K) (pairsIJ : List (ℕ × ℕ)) (R : Positions K) (n : ℕ) (box : Box K)
    (opt : Options K) (rowsSorted : Bool) : CachedPairList K :=
  let np := pairsIJ.length
  let rows := starts (pairsIJ.map Prod.fst) n
  let nbr := (place rows (fun _ => 0) pairsIJ).2
  { rows := rows
    nbr := if rowsSorted then nbr else sortRows rows nbr n
    code := fun _ => 0
    shift := fun _ => 0
    Rref := R
    boxref := box
    micInv := foldInv box opt
    opt := opt
    n := n
    fold := .none
    generalImage := s.generalImage
    general := s.general
    mic := s.mic
    phantom := false
    complete := s.mic && np == n * (n - 1) / 2
    built := true }

/-- `codes`: record image codes for a list later calls reuse. -/
def finishRebuild (s : BoxSetup K) (pairsIJ : List (ℕ × ℕ)) (R : Positions K) (n : ℕ) (box : Box K)
    (opt : Options K) (rowsSorted codes : Bool) : CachedPairList K :=
  let l := finishRows s pairsIJ R n box opt rowsSorted
  if s.general then { l with fold := .general }
  else if codes then buildImageCodes l
  else { l with fold := if ∃ k, l.micInv k ≠ 0 then .round else .none }

/-- The grid a build tries, in the cacheable case only. -/
def gridFor (s : BoxSetup K) (R : Positions K) (n : ℕ) (box : Box K) (opt : Options K) (rl : K) :
    Option CellGrid :=
  if s.mic then CellGrid.build R n (foldWidth box) (foldInv box opt) rl else none

/-- The scan that collects a list. -/
def collect (s : BoxSetup K) (R : Positions K) (n : ℕ) (box : Box K) (opt : Options K) (rl : K)
    (listCutoff : ListCutoff K) (visitCutoff2 : K) :
    Except Exn (List (ℕ × ℕ) × List (Visit K)) :=
  if s.general then generalVisit s.generalImage R n listCutoff visitCutoff2
  else match gridFor s R n box opt rl with
    | some g => .ok (cellVisit g R (foldWidth box) (foldInv box opt) listCutoff visitCutoff2)
    | none => .ok (bruteForceVisit R n (foldWidth box) (foldInv box opt) listCutoff visitCutoff2)

/-- The evaluation-only scan of a first sighting. -/
def visitScan (s : BoxSetup K) (R : Positions K) (n : ℕ) (box : Box K) (opt : Options K) :
    Except Exn (List (Visit K)) :=
  let c2 := opt.cutoff * opt.cutoff
  if s.general then (generalVisit s.generalImage R n (.below (-1)) c2).map Prod.snd
  else match gridFor s R n box opt opt.cutoff with
    | some g => .ok (cellVisit g R (foldWidth box) (foldInv box opt) .huge c2).2
    | none => .ok (bruteForceVisitOnly R n (foldWidth box) (foldInv box opt) c2)

/-- First sighting by `evaluate`: the visited records, and the phantom when cacheable. -/
def visitOnly (R : Positions K) (n : ℕ) (box : Box K) (opt : Options K) :
    Except Exn (List (Visit K) × Option (CachedPairList K)) := do
  let s ← setup n box opt
  let visits ← visitScan s R n box opt
  return (visits.map flip,
    if s.mic then some { finishRebuild s [] R n box opt true false with phantom := true } else none)

/-- Second sighting: the list at cutoff + skin and the visited records of the same scan. -/
def rebuildFused (R : Positions K) (n : ℕ) (box : Box K) (opt : Options K) :
    Except Exn (CachedPairList K × List (Visit K)) := do
  let s ← setup n box opt
  let bc := opt.cutoff + opt.skin
  let (pairsIJ, visits) ← collect s R n box opt bc (.below (bc * bc)) (opt.cutoff * opt.cutoff)
  let cells := (gridFor s R n box opt bc).isSome
  return (finishRebuild s pairsIJ R n box opt (!cells) true, visits.map flip)

def rebuild (R : Positions K) (n : ℕ) (box : Box K) (opt : Options K) :
    Except Exn (CachedPairList K) :=
  (rebuildFused R n box opt).map Prod.fst

/-- The list of exactly the pairs within the cutoff, for one evaluation. -/
def buildForEval (R : Positions K) (n : ℕ) (box : Box K) (opt : Options K) :
    Except Exn (CachedPairList K) := do
  let s ← setup n box opt
  let c2 := opt.cutoff * opt.cutoff
  let (pairsIJ, _) ← collect s R n box opt opt.cutoff (.nextafter c2) (-1)
  let cells := (gridFor s R n box opt opt.cutoff).isSome
  return finishRebuild s pairsIJ R n box opt (!cells) false

/-- What one evaluation loop has summed; `trace` records the kernel calls. -/
structure Sums (K σ : Type) where
  energy : K
  F : ℕ → Vec3 K
  obs : σ
  trace : List (Visit K)

/-- The caller's kernel and observer. -/
structure PairLaw (K σ : Type) where
  kernel : ℕ → ℕ → K → PairTerm K
  observe : σ → K → Vec3 K → σ

namespace CachedPairList
variable (l : CachedPairList K)

/-- The pair set still serves positions `R`. -/
def valid (R : Positions K) (n : ℕ) (box : Box K) (opt : Options K) : Bool :=
  if l.built = false ∨ n ≠ l.n ∨ opt ≠ l.opt then false
  else if box ≠ l.boxref then false
  else if l.complete then true
  else ∀ a < n, sqNorm (R a - l.Rref a) ≤ 1 / 4 * l.opt.skin * l.opt.skin

/-- Keep the stamp, drop the pairs. -/
def dropPairs : CachedPairList K :=
  { l with nbr := fun _ => 0, code := fun _ => 0, rows := fun _ => 0, phantom := true }

/-- `Fold::apply`: `r_i - r_j` for candidate `p` of row `i`, as a minimum image. -/
def apply (R : Positions K) (i p : ℕ) : Except Exn (Vec3 K) :=
  let d := R i - R (l.nbr p)
  match l.fold with
  | .general => l.generalImage.fold d
  | .coded => .ok (d - l.shift (l.code p))
  | .round => .ok (foldDiag (foldWidth l.boxref) l.micInv d)
  | .none => .ok d

def candidate (R : Positions K) (e : ℕ × ℕ) : Except Exn (Visit K) := do
  let d ← l.apply R e.1 e.2
  return ⟨e.1, l.nbr e.2, d, sqNorm d⟩

/-- `forEach`: the candidates within the true cutoff. -/
def forEach (R : Positions K) : Except Exn (List (Visit K)) := do
  let vs ← (entries l.rows l.n).mapM (l.candidate R)
  return vs.filter fun v => v.r2 ≤ l.opt.cutoff * l.opt.cutoff

variable {σ : Type}

/-- One candidate of the force loop; `fi` is the force of atom `i` held in registers. -/
def pairStep (law : PairLaw K σ) (cutoff2 : K) (s : Sums K σ × Vec3 K) (v : Visit K) :
    Sums K σ × Vec3 K :=
  if v.r2 ≤ cutoff2 then
    let t := law.kernel v.i v.j v.r2
    let f := fun k => t.fscale * v.d k
    ({ energy := s.1.energy + t.energy
       F := Function.update s.1.F v.j (s.1.F v.j - f)
       obs := law.observe s.1.obs t.fscale v.d
       trace := s.1.trace ++ [v] }, s.2 + f)
  else s

/-- Row `i`: its candidates, then the register force of atom `i`. -/
def rowStep (law : PairLaw K σ) (R : Positions K) (s : Sums K σ) (i : ℕ) :
    Except Exn (Sums K σ) := do
  let (s, fi) ← (List.range' (l.rows i) (l.rows (i + 1) - l.rows i)).foldlM (fun s p => do
    let v ← l.candidate R (i, p)
    return pairStep law (l.opt.cutoff * l.opt.cutoff) s v) (s, 0)
  return { s with F := Function.update s.F i (s.F i + fi) }

/-- `accumulateImpl`: the fused force loop, adding to `F` and to the observer's state. -/
def accumulate (law : PairLaw K σ) (R : Positions K) (F : ℕ → Vec3 K) (obs : σ) :
    Except Exn (Sums K σ) :=
  (List.range l.n).foldlM (l.rowStep law R) ⟨0, F, obs, []⟩

end CachedPairList
end Rgpot.Nlist
