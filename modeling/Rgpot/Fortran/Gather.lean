import Rgpot.Fortran.TableRuns
import Rgpot.Lib.Bonds
import Rgpot.Morse.MorsePot

/-! What the gather kernels share: loops over the rows of a table, the call around a kernel, and the bonds
that a table carries. -/
namespace Rgpot.Fortran
open Bonds CountingSort

section Loops
variable {M : Type} [AddCommMonoid M]

/-- `do s = first, stop - 1`, each round adding to what was zero before. -/
def accumulate (first stop : ℕ) (f : ℕ → M) : M :=
  (List.range' first (stop - first)).foldl (fun acc s => acc + f s) 0

theorem foldl_add {α : Type} (l : List α) (f : α → M) (acc : M) :
    l.foldl (fun acc s => acc + f s) acc = acc + (l.map f).sum := by
  induction l generalizing acc with
  | nil => exact (add_zero acc).symm
  | cons s l ih =>
    rw [List.foldl_cons, ih, List.map_cons, List.sum_cons, add_assoc]

/-- What a loop over pairs adds for both orders is a sum over all ordered pairs. -/
theorem sum_both_orders (first stop : ℕ) (f : ℕ → ℕ → M) :
    ∑ s ∈ Finset.Ico first stop, ∑ k ∈ Finset.Ico (s + 1) stop, (f s k + f k s) =
      ∑ s ∈ Finset.Ico first stop, ∑ k ∈ (Finset.Ico first stop).erase s, f s k := by
  have hsplit : ∀ s ∈ Finset.Ico first stop, ∑ k ∈ (Finset.Ico first stop).erase s, f s k =
      ∑ k ∈ Finset.Ico (s + 1) stop, f s k + ∑ k ∈ Finset.Ico first s, f s k := by
    intro s hs
    rw [Finset.mem_Ico] at hs
    have hdisjoint : Disjoint (Finset.Ico (s + 1) stop) (Finset.Ico first s) := by
      refine Finset.disjoint_left.mpr fun k hk hk' => ?_
      rw [Finset.mem_Ico] at hk hk'
      omega
    rw [← Finset.sum_union hdisjoint]
    refine Finset.sum_congr ?_ fun _ _ => rfl
    ext k
    simp only [Finset.mem_erase, Finset.mem_union, Finset.mem_Ico]
    omega
  have hswap : ∑ s ∈ Finset.Ico first stop, ∑ k ∈ Finset.Ico (s + 1) stop, f k s =
      ∑ s ∈ Finset.Ico first stop, ∑ k ∈ Finset.Ico first s, f s k := by
    refine Finset.sum_comm' fun s k => ?_
    simp only [Finset.mem_Ico]
    omega
  rw [Finset.sum_congr rfl hsplit, Finset.sum_add_distrib, ← hswap, ← Finset.sum_add_distrib]
  refine Finset.sum_congr rfl fun s _ => Finset.sum_add_distrib

theorem accumulate_eq (first stop : ℕ) (f : ℕ → M) :
    accumulate first stop f = ∑ s ∈ Finset.Ico first stop, f s := by
  rw [accumulate, foldl_add, zero_add]
  exact (Multiset.sum_coe _).symm

/-- A loop over the entries of a list and, inside it, over the later entries. -/
def overPairs {α : Type} (l : List α) (f : α → α → M) : M :=
  match l with
  | [] => 0
  | x :: later => later.foldl (fun acc y => acc + f x y) 0 + overPairs later f

theorem overPairs_map {α β : Type} (g : α → β) (l : List α) (f : β → β → M) :
    overPairs (l.map g) f = overPairs l fun x y => f (g x) (g y) := by
  induction l with
  | nil => rfl
  | cons x later ih =>
    rw [List.map_cons, overPairs, overPairs, ih, List.foldl_map]

theorem overPairs_both {α : Type} [DecidableEq α] {l : List α} (hl : l.Nodup) (f : α → α → M) :
    (overPairs l fun x y => f x y + f y x) = ∑ x ∈ l.toFinset, ∑ y ∈ l.toFinset.erase x, f x y := by
  induction l with
  | nil => rfl
  | cons x later ih =>
    obtain ⟨hx, hlater⟩ := List.nodup_cons.mp hl
    have hmem : x ∉ later.toFinset := List.mem_toFinset.not.mpr hx
    have hrest : ∀ y ∈ later.toFinset, ∑ z ∈ (insert x later.toFinset).erase y, f y z =
        f y x + ∑ z ∈ later.toFinset.erase y, f y z := by
      intro y hy
      have hne : x ≠ y := fun heq => hmem (heq ▸ hy)
      rw [Finset.erase_insert_of_ne hne, Finset.sum_insert fun h => hmem (Finset.mem_of_mem_erase h)]
    have hfold : later.foldl (fun acc y => acc + (f x y + f y x)) 0 =
        ∑ y ∈ later.toFinset, (f x y + f y x) := by
      rw [foldl_add, zero_add, List.sum_toFinset _ hlater]
    rw [overPairs, hfold, ih hlater, List.toFinset_cons, Finset.sum_insert hmem, Finset.erase_insert hmem,
      Finset.sum_congr rfl hrest]
    simp only [Finset.sum_add_distrib]
    rw [add_assoc]

end Loops

/-- `cos`, `sin` and `acos`. -/
class Circular (K : Type) where
  cos : K → K
  sin : K → K
  acos : K → K

noncomputable instance : Circular ℝ := ⟨Real.cos, Real.sin, Real.arccos⟩

def pi {K : Type} [Field K] [Circular K] : K := Circular.acos (-1)

theorem pi_real : (pi : ℝ) = Real.pi := Real.arccos_neg_one

section Exponentials
variable {K : Type} [Field K] [LinearOrder K] [Elementary K]

/-- `exp_floor`: exponential arguments below it underflow to zero. -/
def expFloor : K := -300

/-- `expo = 0; if (x > exp_floor) expo = exp(x)`. -/
def guardedExp (x : K) : K := if x > expFloor then Elementary.exp x else 0

theorem elementary_exp (x : ℝ) : Elementary.exp x = Real.exp x := rfl

theorem hasDerivAt_guardedExp {f : ℝ → ℝ} {f' r : ℝ} (hf : HasDerivAt f f' r) (hr : f r ≠ expFloor) :
    HasDerivAt (fun r => guardedExp (f r)) (guardedExp (f r) * f') r := by
  rcases lt_or_gt_of_ne hr with hlt | hgt
  · have hnear := hf.continuousAt.eventually_lt continuousAt_const hlt
    rw [guardedExp, if_neg hlt.le.not_gt, zero_mul]
    refine (hasDerivAt_const r (0 : ℝ)).congr_of_eventuallyEq ?_
    filter_upwards [hnear] with r' h
    exact if_neg h.le.not_gt
  · have hnear := continuousAt_const.eventually_lt hf.continuousAt hgt
    rw [guardedExp, if_pos hgt]
    refine hf.exp.congr_of_eventuallyEq ?_
    filter_upwards [hnear] with r' h
    exact if_pos h

/-- Two pieces that meet with the same slope. -/
theorem hasDerivAt_joined {f g : ℝ → ℝ} {d a : ℝ} (hf : HasDerivAt f d a) (hg : HasDerivAt g d a)
    (hmeet : g a = f a) : HasDerivAt (fun r => if r ≤ a then f r else g r) d a := by
  have hleft : HasDerivWithinAt (fun r => if r ≤ a then f r else g r) d (Set.Iic a) a :=
    hf.hasDerivWithinAt.congr (fun r hr => if_pos hr) (if_pos le_rfl)
  have hright : HasDerivWithinAt (fun r => if r ≤ a then f r else g r) d (Set.Ici a) a := by
    refine hg.hasDerivWithinAt.congr (fun r hr => ?_) ((if_pos le_rfl).trans hmeet.symm)
    rcases (Set.mem_Ici.mp hr).eq_or_lt with rfl | hlt
    · exact (if_pos le_rfl).trans hmeet.symm
    · exact if_neg hlt.not_ge
  have hboth := hleft.union hright
  rwa [Set.Iic_union_Ici, hasDerivWithinAt_univ] at hboth

/-- What a radius cuts off, away from that radius. -/
theorem hasDerivAt_cut {f : ℝ → ℝ} {f' r rt : ℝ} (hr : r ≠ rt) (hf : r < rt → HasDerivAt f f' r) :
    HasDerivAt (fun r => if r ≥ rt then 0 else f r) (if r ≥ rt then 0 else f') r := by
  rcases lt_or_gt_of_ne hr with hlt | hgt
  · rw [if_neg (not_le.mpr hlt)]
    refine (hf hlt).congr_of_eventuallyEq ?_
    filter_upwards [Iio_mem_nhds hlt] with r' h
    exact if_neg (not_le.mpr h)
  · rw [if_pos hgt.le]
    refine (hasDerivAt_const r (0 : ℝ)).congr_of_eventuallyEq ?_
    filter_upwards [Ioi_mem_nhds hgt] with r' h
    exact if_pos (le_of_lt h)

end Exponentials

section Rows
variable {K : Type} [Field K]

/-- The entry of a slot; after a build there are buffers. -/
def NeighborTable.entry (t : NeighborTable K) (s : ℕ) : Neighbor K :=
  match t.buffers with
  | some b => b.entry s
  | none => ⟨0, 0, 0⟩

def NeighborTable.idx (t : NeighborTable K) (s : ℕ) : ℕ := (t.entry s).idx
def NeighborTable.vec (t : NeighborTable K) (s : ℕ) : Fin 3 → K := (t.entry s).vec
def NeighborTable.dist (t : NeighborTable K) (s : ℕ) : K := (t.entry s).dist

/-- `vec(:, s) / dist(s)`. -/
def NeighborTable.unitVec (t : NeighborTable K) (s : ℕ) : Fin 3 → K := fun d => t.vec s d / t.dist s

/-- `-vec(:, s) / dist(s)`. -/
def NeighborTable.backVec (t : NeighborTable K) (s : ℕ) : Fin 3 → K := fun d => -t.vec s d / t.dist s

/-- `do s = row(i), row(i + 1) - 1`. -/
def NeighborTable.overRow {M : Type} [AddCommMonoid M] (t : NeighborTable K) (i : ℕ) (f : ℕ → M) : M :=
  accumulate (t.row i) (t.row (i + 1)) f

omit [Field K] in
theorem NeighborTable.overRow_add {M : Type} [AddCommMonoid M] (t : NeighborTable K) (i : ℕ) (f g : ℕ → M) :
    (t.overRow i fun s => f s + g s) = t.overRow i f + t.overRow i g := by
  simp only [NeighborTable.overRow, accumulate_eq, Finset.sum_add_distrib]

/-- An array over the entries, each atom writing the slots of its own row. -/
def NeighborTable.perEntry {M : Type} (t : NeighborTable K) (init : ℕ → M) (f : ℕ → ℕ → M) : ℕ → M :=
  (List.range' 1 t.natoms).foldl (fun arr i =>
    (List.range' (t.row i) (t.countFor i)).foldl (fun arr s => Function.update arr s (f i s)) arr) init

end Rows

section Calls
variable {K : Type} [Field K] [DecidableEq K] {v : Vesin K}

/-- The atoms of a call; `dim` is the first extent of the positions. -/
structure Atoms (K : Type) where
  dim : ℕ
  natoms : ℕ
  positions : Fin dim → Fin natoms → K
  cell : Fin 3 → Fin 3 → K

/-- What a call leaves in its output arguments. -/
structure Evaluation (K : Type) (natoms : ℕ) where
  energy : K
  forces : Fin natoms → Fin 3 → K
  status : Int32
  errmsg : String

def Evaluation.failed {natoms : ℕ} (error : Int32 × String) : Evaluation K natoms :=
  ⟨0, fun _ _ => 0, error.1, error.2⟩

/-- A call of a kernel: what it checks first, the build, and the kernel on the table. -/
def evaluate (checks : Except (Int32 × String) Unit) (t : TableState v) (x : Atoms K) (cutoff : K)
    (heap : Heap K)
    (kernel : NeighborTable K → Except (Int32 × String) (K × (Fin x.natoms → Fin 3 → K))) :
    Evaluation K x.natoms × TableState v :=
  match checks with
  | .error e => (.failed e, t)
  | .ok () =>
    let (status, t) := t.neighborTableBuild
      { dim := x.dim, natoms := x.natoms, positions := x.positions, cell := x.cell, cutoff } heap
    if status.1 ≠ 0 then (.failed status, t)
    else
      match kernel t.toNeighborTable with
      | .error e => (.failed e, t)
      | .ok (energy, forces) => (⟨energy, forces, 0, ""⟩, t)

theorem evaluate_status {t : TableState v} {x : Atoms K} {cutoff : K} {heap : Heap K}
    {kernel : NeighborTable K → Except (Int32 × String) (K × (Fin x.natoms → Fin 3 → K))}
    (hkernel : ∀ t, ∃ out, kernel t = .ok out) :
    (evaluate (.ok ()) t x cutoff heap kernel).1.status = (t.neighborTableBuild
      { dim := x.dim, natoms := x.natoms, positions := x.positions, cell := x.cell, cutoff } heap).1.1 := by
  rw [evaluate]
  dsimp only
  split
  · rfl
  · rename_i hbuild
    obtain ⟨out, hout⟩ := hkernel (t.neighborTableBuild
      { dim := x.dim, natoms := x.natoms, positions := x.positions, cell := x.cell, cutoff } heap).2.toNeighborTable
    rw [hout]
    exact (not_not.mp hbuild).symm

end Calls

section Contract

/-- The rows of a cell whose vectors are columns. -/
def cellRows (cell : Fin 3 → Fin 3 → ℝ) : Matrix (Fin 3) (Fin 3) ℝ := fun k d => cell d k

variable {n : ℕ}

/-- A bond as vesin reports it. -/
noncomputable def pairAt (H : Matrix (Fin 3) (Fin 3) ℝ) (R : Places (Fin n) (Fin 3))
    (b : Bond (Fin n) (Fin 3)) : Pair ℝ n := ⟨b.src, b.dst, vector H R b, length H R b⟩

/-- A full list: each pair of atoms or images within the cutoff once in each direction. At the cutoff
itself a pair may be listed or not. -/
def Reports (H : Matrix (Fin 3) (Fin 3) ℝ) (R : Places (Fin n) (Fin 3)) (per : Fin 3 → Bool)
    (cutoff : ℝ) (pairs : List (Pair ℝ n)) : Prop :=
  ∃ bonds : List (Bond (Fin n) (Fin 3)), bonds.Nodup ∧ pairs = bonds.map (pairAt H R) ∧
    (∀ b ∈ bonds, length H R b ≤ cutoff) ∧
    ∀ b, ¬ (b.src = b.dst ∧ b.shift = 0) → Lattice.Supported per b.shift → length H R b < cutoff →
      b ∈ bonds

/-- The list that vesin gives the next build on the table is full, if the call succeeds. -/
def TableState.ReportsFull {v : Vesin ℝ} (t : TableState v) (R : Places (Fin n) (Fin 3))
    (cell : Fin 3 → Fin 3 → ℝ) (cutoff : ℝ) : Prop :=
  let computed := (v.compute (t.calculator cutoff (0.1 * cutoff)) n R cell fun _ => true).1
  computed.status = 0 → Reports (cellRows cell) R (fun _ => true) cutoff computed.pairs

/-- What vesin documents: a calculator created for a cutoff and a skin stays one, and a successful call
reports the full list unless it may reuse candidates that were searched in another cell. Its test for a
changed cell bounds the corners of the box, not the images of atoms far outside of it. -/
structure Vesin.Documented (v : Vesin ℝ) where
  /-- The calculator's cutoff and skin, and the cell of the candidates it holds, if any. -/
  Serves : v.NeighborList → ℝ → ℝ → Option (Fin 3 → Fin 3 → ℝ) → Prop
  create : ∀ cutoff skin, Serves (v.create cutoff skin) cutoff skin none
  keeps : ∀ {nl cutoff skin held}, Serves nl cutoff skin held → ∀ n R cell per, ∃ held',
    Serves (v.compute nl n R cell per).2 cutoff skin held' ∧ ∀ c ∈ held', c ∈ held ∨ c = cell
  reports : ∀ {nl cutoff skin held}, Serves nl cutoff skin held → ∀ n R cell per,
    (∀ c ∈ held, c = cell) → (v.compute nl n R cell per).1.status = 0 →
    Reports (cellRows cell) R per cutoff (v.compute nl n R cell per).1.pairs

variable {v : Vesin ℝ}

/-- The calculator a table keeps is one for the table's cutoff and skin, with no candidates of another
cell. -/
def TableState.Serving (hv : v.Documented) (cell : Fin 3 → Fin 3 → ℝ) (t : TableState v) : Prop :=
  ∀ nl, t.nl = some nl → ∃ held, hv.Serves nl t.cutoff t.skin held ∧ ∀ c ∈ held, c = cell

namespace TableState
variable {hv : v.Documented} {cell : Fin 3 → Fin 3 → ℝ} {t : TableState v}

theorem Serving.calculator (h : t.Serving hv cell) (cutoff skin : ℝ) :
    ∃ held, hv.Serves (t.calculator cutoff skin) cutoff skin held ∧ ∀ c ∈ held, c = cell := by
  have hcreate : ∃ held, hv.Serves (v.create cutoff skin) cutoff skin held ∧ ∀ c ∈ held, c = cell :=
    ⟨none, hv.create cutoff skin, by simp⟩
  rw [TableState.calculator]
  cases hnl : t.nl with
  | none => exact hcreate
  | some nl =>
    dsimp only
    split
    · exact hcreate
    · rename_i hsame
      push Not at hsame
      rw [← hsame.1, ← hsame.2]
      exact h nl hnl

theorem Serving.build (h : t.Serving hv cell) (x : BuildInput ℝ) (hx : x.cell = cell)
    (heap : Heap ℝ) : (t.neighborTableBuild x heap).2.Serving hv cell := by
  unfold neighborTableBuild
  split
  · dsimp only
    obtain ⟨held, hserves, hheld⟩ := h.calculator x.cutoff (x.skin.getD (0.1 * x.cutoff))
    have hkeeps : ∀ R per, ∃ held', hv.Serves (v.compute (t.calculator x.cutoff
        (x.skin.getD (0.1 * x.cutoff))) x.natoms R x.cell per).2 x.cutoff
        (x.skin.getD (0.1 * x.cutoff)) held' ∧ ∀ c ∈ held', c = cell := by
      intro R per
      obtain ⟨held', hserves', hheld'⟩ := hv.keeps hserves x.natoms R x.cell per
      refine ⟨held', hserves', fun c hc => ?_⟩
      rcases hheld' c hc with hc | rfl
      · exact hheld c hc
      · exact hx
    split
    · intro nl hnl
      cases hnl
      exact hkeeps _ _
    · intro nl hnl
      cases hnl
      exact hkeeps _ _
  · exact h

/-- Builds in one cell leave a calculator that reports full lists in it. -/
theorem serving_after (hv : v.Documented) {calls : List (TableCall ℝ)}
    (hcell : ∀ x heap, .build x heap ∈ calls → x.cell = cell) :
    ((table v).after (.fresh v) calls).Serving hv cell := by
  have hrun : ∀ t : TableState v, t.Serving hv cell → ((table v).after t calls).Serving hv cell := by
    induction calls with
    | nil => exact fun t h => h
    | cons call calls ih =>
      intro t h
      refine ih (fun x heap hmem => hcell x heap (List.mem_cons_of_mem _ hmem)) _ ?_
      cases call with
      | build x heap => exact h.build x (hcell x heap List.mem_cons_self) heap
      | release =>
        intro nl hnl
        cases hnl
  refine hrun _ fun nl hnl => ?_
  cases hnl

theorem Serving.reportsFull (h : t.Serving hv cell) (R : Places (Fin n) (Fin 3)) (cutoff : ℝ) :
    t.ReportsFull R cell cutoff := by
  obtain ⟨held, hserves, hheld⟩ := h.calculator cutoff (0.1 * cutoff)
  exact hv.reports hserves n R cell (fun _ => true) hheld

/-- A successful build is one from the full list. -/
theorem ReportsFull.build {R : Places (Fin n) (Fin 3)} {cutoff : ℝ} {heap : Heap ℝ}
    (h : t.ReportsFull R cell cutoff) :
    let built := t.neighborTableBuild ⟨3, n, R, cell, cutoff, none, none⟩ heap
    built.1.1 = 0 → ∃ nl : List (Pair ℝ n), Reports (cellRows cell) R (fun _ => true) cutoff nl ∧
      built.2.toNeighborTable = t.toNeighborTable.build nl heap := by
  intro built
  simp only [built, neighborTableBuild, dif_pos, Option.getD_none]
  split
  · intro hstatus
    exact absurd hstatus (by assumption)
  · rename_i hstatus
    intro _
    exact ⟨_, h (not_not.mp hstatus), rfl⟩

end TableState

end Contract

section Carries
variable {n : ℕ} {H : Matrix (Fin 3) (Fin 3) ℝ} {R : Places (Fin n) (Fin 3)}

/-- A bond as an entry of its owner's row. -/
noncomputable def neighborAt (H : Matrix (Fin 3) (Fin 3) ℝ) (R : Places (Fin n) (Fin 3))
    (b : Bond (Fin n) (Fin 3)) : Neighbor ℝ := ⟨b.dst + 1, vector H R b, length H R b⟩

/-- The row of each atom holds its bonds, each at one slot. -/
structure Carries (t : NeighborTable ℝ) (H : Matrix (Fin 3) (Fin 3) ℝ) (R : Places (Fin n) (Fin 3))
    (B : Finset (Bond (Fin n) (Fin 3))) (slot : Bond (Fin n) (Fin 3) → ℕ) : Prop where
  natoms : t.natoms = n
  row_one : t.row 1 = 1
  row_le : ∀ i, 1 ≤ i → i ≤ n → t.row i ≤ t.row (i + 1)
  rows : ∀ i : Fin n, Set.BijOn slot (rowOf B i) (Finset.Ico (t.row (i + 1)) (t.row (i + 2)))
  entry : ∀ b ∈ B, t.entry (slot b) = neighborAt H R b

/-- The bonds of one row in the order of the table. -/
noncomputable def rowBonds (bonds : List (Bond (Fin n) (Fin 3))) (i : Fin n) :
    List (Bond (Fin n) (Fin 3)) :=
  (byKey (fun b => b.dst + 1) (n + 1) (bonds.filter fun b => b.src ≠ b.dst)).filter fun b => b.src = i

theorem slice_eq_rowBonds (t : NeighborTable ℝ) (bonds : List (Bond (Fin n) (Fin 3))) (heap : Heap ℝ)
    (i : Fin n) : (t.build (bonds.map (pairAt H R)) heap).slice (i + 1) =
      (rowBonds bonds i).map (neighborAt H R) := by
  rw [build_slice _ _ _ (Nat.le_add_left 1 _) i.isLt, kept, List.filter_map, byKey_map,
    List.filter_map, List.map_map, rowBonds]
  have hkeys : (Pair.j ∘ pairAt H R : Bond (Fin n) (Fin 3) → ℕ) = fun b => (b.dst : ℕ) + 1 := rfl
  have hkept : ((fun p : Pair ℝ n => decide (p.i ≠ p.j)) ∘ pairAt H R) =
      fun b : Bond (Fin n) (Fin 3) => decide (b.src ≠ b.dst) := by
    funext b
    refine decide_eq_decide.mpr ?_
    simp [Pair.i, Pair.j, pairAt, Fin.val_inj]
  have howner : ((fun p : Pair ℝ n => decide (p.i = (i : ℕ) + 1)) ∘ pairAt H R) =
      fun b : Bond (Fin n) (Fin 3) => decide (b.src = i) := by
    funext b
    refine decide_eq_decide.mpr ?_
    simp [Pair.i, pairAt, Fin.val_inj]
  rw [hkeys, hkept, howner]
  rfl

theorem nodup_rowBonds {bonds : List (Bond (Fin n) (Fin 3))} (h : bonds.Nodup) (i : Fin n) :
    (rowBonds bonds i).Nodup := by
  refine List.Nodup.filter _ ((byKey_perm fun b _ => ?_).nodup_iff.mpr (h.filter _))
  omega

theorem mem_rowBonds {bonds : List (Bond (Fin n) (Fin 3))} {i : Fin n} {b : Bond (Fin n) (Fin 3)} :
    b ∈ rowBonds bonds i ↔ b ∈ bonds ∧ b.src ≠ b.dst ∧ b.src = i := by
  have hdst : (b.dst : ℕ) + 1 < n + 1 := by omega
  simp only [rowBonds, List.mem_filter, mem_byKey, decide_eq_true_eq, hdst, and_true, and_assoc]

/-- A table that is built from a full list carries the bonds within the cutoff, where none is as long as
the cutoff. -/
theorem exists_carries (t : NeighborTable ℝ) {nl : List (Pair ℝ n)} {cutoff : ℝ} (hH : H.det ≠ 0)
    (hoff : ∀ b : Bond (Fin n) (Fin 3), b.src ≠ b.dst → length H R b ≠ cutoff)
    (h : Reports H R (fun _ => true) cutoff nl) (heap : Heap ℝ) :
    ∃ slot, Carries (t.build nl heap) H R (within H R cutoff) slot := by
  obtain ⟨bonds, hnodup, rfl, hshort, hlisted⟩ := h
  set built := t.build (bonds.map (pairAt H R)) heap with hbuilt
  have hfull := build_fullList t (bonds.map (pairAt H R)) heap
  obtain ⟨buffers, hbuffers, -⟩ := hfull.extent
  have hmem : ∀ i b, b ∈ rowOf (within H R cutoff) i ↔ b ∈ rowBonds bonds i := by
    intro i b
    rw [mem_rowOf, mem_within hH, mem_rowBonds]
    constructor
    · rintro ⟨⟨hne, hlt⟩, hi⟩
      refine ⟨hlisted b (fun hself => hne hself.1) (fun _ hfalse => ?_) hlt, hne, hi⟩
      cases hfalse
    · rintro ⟨hb, hne, hi⟩
      exact ⟨⟨hne, lt_of_le_of_ne (hshort b hb) (hoff b hne)⟩, hi⟩
  have hslice : ∀ i : Fin n, (List.range' (built.row (i + 1)) (built.countFor (i + 1))).map built.entry =
      (rowBonds bonds i).map (neighborAt H R) := by
    intro i
    rw [← slice_eq_rowBonds t bonds heap i, ← hbuilt, NeighborTable.slice, NeighborTable.entries]
    have hentry : built.entry = buffers.entry := by
      funext s
      rw [NeighborTable.entry, hbuffers]
    rw [hentry, hbuffers]
  have hlength : ∀ i : Fin n, (rowBonds bonds i).length = built.countFor (i + 1) := by
    intro i
    have := congrArg List.length (hslice i)
    rw [List.length_map, List.length_map, List.length_range'] at this
    exact this.symm
  have hle : ∀ i : Fin n, built.row (i + 1) ≤ built.row (i + 2) :=
    fun i => hfull.row_le _ (Nat.le_add_left 1 _) i.isLt
  have hindex : ∀ b i, b ∈ rowBonds bonds i →
      (rowBonds bonds i).idxOf b < built.countFor (i + 1) := by
    intro b i hb
    rw [← hlength i]
    exact List.idxOf_lt_length_iff.mpr hb
  refine ⟨fun b => built.row (b.src + 1) + (rowBonds bonds b.src).idxOf b, rfl, hfull.row_one,
    hfull.row_le, ?_, ?_⟩
  · intro i
    have hcount : built.countFor (i + 1) = built.row (i + 2) - built.row (i + 1) := rfl
    refine ⟨?_, ?_, ?_⟩
    · intro b hb
      have hi := (mem_rowOf.mp hb).2
      have hlt := hindex b i ((hmem i b).mp hb)
      have := hle i
      subst hi
      simp only [Finset.coe_Ico, Set.mem_Ico]
      omega
    · intro b hb c hc heq
      have hbi := (mem_rowOf.mp hb).2
      have hci := (mem_rowOf.mp hc).2
      simp only [hbi, hci] at heq
      exact (List.idxOf_inj ((hmem i b).mp hb)).mp (Nat.add_left_cancel heq)
    · intro s hs
      simp only [Finset.coe_Ico, Set.mem_Ico] at hs
      have hk : s - built.row (i + 1) < (rowBonds bonds i).length := by
        rw [hlength i]
        omega
      have hrow := (hmem i _).mpr (List.getElem_mem hk)
      refine ⟨(rowBonds bonds i)[s - built.row (i + 1)], hrow, ?_⟩
      have hsrc := (mem_rowOf.mp hrow).2
      simp only [hsrc]
      rw [(nodup_rowBonds hnodup i).idxOf_getElem]
      omega
  · intro b hb
    have hrow := (hmem b.src b).mp (mem_rowOf.mpr ⟨hb, rfl⟩)
    have hlt := hindex b b.src hrow
    have hget := congrArg (fun l => l[(rowBonds bonds b.src).idxOf b]?) (hslice b.src)
    simp only [List.getElem?_map, List.getElem?_range', hlt, Option.map_some,
      List.getElem?_idxOf hrow, one_mul] at hget
    exact Option.some.inj hget

namespace Carries
variable {t : NeighborTable ℝ} {B : Finset (Bond (Fin n) (Fin 3))} {slot : Bond (Fin n) (Fin 3) → ℕ}

theorem idx (h : Carries t H R B slot) {b : Bond (Fin n) (Fin 3)} (hb : b ∈ B) :
    t.idx (slot b) = b.dst + 1 := congrArg Neighbor.idx (h.entry b hb)

theorem vec (h : Carries t H R B slot) {b : Bond (Fin n) (Fin 3)} (hb : b ∈ B) :
    t.vec (slot b) = vector H R b := congrArg Neighbor.vec (h.entry b hb)

theorem dist (h : Carries t H R B slot) {b : Bond (Fin n) (Fin 3)} (hb : b ∈ B) :
    t.dist (slot b) = length H R b := congrArg Neighbor.dist (h.entry b hb)

theorem unitVec (h : Carries t H R B slot) {b : Bond (Fin n) (Fin 3)} (hb : b ∈ B) :
    t.unitVec (slot b) = unit H R b := by
  funext d
  simp only [NeighborTable.unitVec, h.vec hb, h.dist hb, unit, Pi.smul_apply, smul_eq_mul,
    div_eq_inv_mul]

theorem backVec (h : Carries t H R B slot) {b : Bond (Fin n) (Fin 3)} (hb : b ∈ B) :
    t.backVec (slot b) = unit H R b.rev := by
  rw [unit_rev, ← h.unitVec hb]
  funext d
  simp only [NeighborTable.backVec, NeighborTable.unitVec, Pi.neg_apply, neg_div]

section Sums
variable {M : Type} [AddCommMonoid M]

/-- A sum over the slots of a row is one over its bonds. -/
theorem sum_slots (h : Carries t H R B slot) (i : Fin n) (f : ℕ → M) :
    ∑ s ∈ Finset.Ico (t.row (i + 1)) (t.row (i + 2)), f s = ∑ b ∈ rowOf B i, f (slot b) :=
  (Finset.sum_nbij slot (h.rows i).mapsTo (h.rows i).injOn (h.rows i).surjOn fun _ _ => rfl).symm

theorem overRow (h : Carries t H R B slot) (i : Fin n) (f : ℕ → M) :
    t.overRow (i + 1) f = ∑ b ∈ rowOf B i, f (slot b) := by
  rw [NeighborTable.overRow, accumulate_eq, h.sum_slots i]

/-- A sum over the other slots of a row. -/
theorem sum_erase (h : Carries t H R B slot) {i : Fin n} {b : Bond (Fin n) (Fin 3)}
    (hb : b ∈ rowOf B i) (f : ℕ → M) :
    ∑ s ∈ (Finset.Ico (t.row (i + 1)) (t.row (i + 2))).erase (slot b), f s =
      ∑ c ∈ (rowOf B i).erase b, f (slot c) := by
  have hrow := h.rows i
  refine (Finset.sum_nbij slot ?_ (hrow.injOn.mono ?_) ?_ fun _ _ => rfl).symm
  · intro c hc
    rw [Finset.mem_erase] at hc
    rw [Finset.mem_erase]
    exact ⟨fun heq => hc.1 (hrow.injOn hc.2 hb heq), hrow.mapsTo hc.2⟩
  · exact Finset.coe_subset.mpr (Finset.erase_subset _ _)
  · intro s hs
    rw [Finset.mem_coe, Finset.mem_erase] at hs
    obtain ⟨c, hc, rfl⟩ := hrow.surjOn hs.2
    refine ⟨c, ?_, rfl⟩
    rw [Finset.mem_coe, Finset.mem_erase]
    exact ⟨fun heq => hs.1 (congrArg slot heq), hc⟩

/-- A loop over a row that skips the slot of one of its bonds. -/
theorem overRow_others (h : Carries t H R B slot) {i : Fin n} {b : Bond (Fin n) (Fin 3)}
    (hb : b ∈ rowOf B i) (f : ℕ → M) :
    (t.overRow (i + 1) fun s => if s = slot b then 0 else f s) = ∑ c ∈ (rowOf B i).erase b, f (slot c) := by
  rw [NeighborTable.overRow, accumulate_eq, Finset.sum_ite, Finset.sum_const_zero, zero_add,
    Finset.filter_ne', h.sum_erase hb]

/-- The loop over the unordered pairs of a row. -/
theorem pairs (h : Carries t H R B slot) (i : Fin n) (f : ℕ → ℕ → M) :
    (t.overRow (i + 1) fun s => accumulate (s + 1) (t.row (i + 2)) fun k => f s k + f k s) =
      ∑ b ∈ rowOf B i, ∑ c ∈ (rowOf B i).erase b, f (slot b) (slot c) := by
  rw [NeighborTable.overRow, accumulate_eq]
  simp only [accumulate_eq]
  rw [sum_both_orders, h.sum_slots i]
  exact Finset.sum_congr rfl fun b hb => h.sum_erase hb _

/-- The loop over the unordered pairs of some entries of a row; the others would add nothing. -/
theorem pairs_where (h : Carries t H R B slot) (i : Fin n) (P : ℕ → Prop) [DecidablePred P] (f : ℕ → ℕ → M)
    (hf : ∀ s k, ¬ P s ∨ ¬ P k → f s k = 0) :
    (overPairs ((List.range' (t.row (i + 1)) (t.countFor (i + 1))).filter P) fun s k => f s k + f k s) =
      ∑ b ∈ rowOf B i, ∑ c ∈ (rowOf B i).erase b, f (slot b) (slot c) := by
  set S := Finset.Ico (t.row (i + 1)) (t.row (i + 2)) with hS
  have hslots : ((List.range' (t.row (i + 1)) (t.countFor (i + 1))).filter P).toFinset = S.filter P := by
    ext s
    have hcount : t.countFor (i + 1) = t.row (i + 2) - t.row (i + 1) := rfl
    simp only [List.mem_toFinset, List.mem_filter, List.mem_range'_1, Finset.mem_filter, hS, Finset.mem_Ico,
      decide_eq_true_eq]
    refine and_congr_left fun _ => ?_
    omega
  have hinner : ∀ s, ∑ k ∈ (S.filter P).erase s, f s k = ∑ k ∈ S.erase s, f s k := by
    intro s
    rw [← Finset.filter_erase]
    refine Finset.sum_filter_of_ne fun k _ hne => ?_
    by_contra hk
    exact hne (hf s k (Or.inr hk))
  rw [overPairs_both (List.Nodup.filter _ List.nodup_range'), hslots, Finset.sum_congr rfl fun s _ => hinner s,
    Finset.sum_filter_of_ne, h.sum_slots i]
  · exact Finset.sum_congr rfl fun b hb => h.sum_erase hb _
  · intro s _ hne
    by_contra hs
    exact hne (Finset.sum_eq_zero fun k _ => hf s k (Or.inl hs))

end Sums

theorem row_mono (h : Carries t H R B slot) {j k : ℕ} (hj : 1 ≤ j) (hk : k ≤ n + 1) (hjk : j ≤ k) :
    t.row j ≤ t.row k := by
  induction k, hjk using Nat.le_induction with
  | base => exact le_rfl
  | succ k hjk ih => exact (ih (by omega)).trans (h.row_le k (by omega) (by omega))

/-- A slot lies in the row of its bond only. -/
theorem src_eq (h : Carries t H R B slot) {b : Bond (Fin n) (Fin 3)} (hb : b ∈ B) {i : ℕ}
    (hi : 1 ≤ i) (hn : i ≤ n) (hs : slot b ∈ Finset.Ico (t.row i) (t.row (i + 1))) : i = b.src + 1 := by
  have hown := (h.rows b.src).mapsTo (mem_rowOf.mpr ⟨hb, rfl⟩)
  simp only [Finset.coe_Ico, Set.mem_Ico] at hown
  rw [Finset.mem_Ico] at hs
  have hsrc := b.src.isLt
  rcases Nat.lt_trichotomy i (b.src + 1) with hlt | heq | hgt
  · have := h.row_mono (j := i + 1) (k := b.src + 1) (by omega) (by omega) hlt
    omega
  · exact heq
  · have := h.row_mono (j := b.src + 2) (k := i) (by omega) (by omega) hgt
    omega

theorem one_le_slot (h : Carries t H R B slot) {b : Bond (Fin n) (Fin 3)} (hb : b ∈ B) : 1 ≤ slot b := by
  have hown := (h.rows b.src).mapsTo (mem_rowOf.mpr ⟨hb, rfl⟩)
  have hfirst := h.row_mono (j := 1) (k := b.src + 1) le_rfl (by omega) (by omega)
  rw [h.row_one] at hfirst
  simp only [Finset.coe_Ico, Set.mem_Ico] at hown
  omega

/-- Every entry of the table is the slot of a bond. -/
theorem exists_slot (h : Carries t H R B slot) {s : ℕ} (hs : 1 ≤ s) (hlast : s < t.row (n + 1)) :
    ∃ b ∈ B, slot b = s := by
  have hsome : ∃ i, s < t.row (i + 1) := ⟨n, hlast⟩
  have hlt := Nat.find_spec hsome
  have hle : Nat.find hsome ≤ n := Nat.find_min' hsome hlast
  cases hk : Nat.find hsome with
  | zero =>
    rw [hk, h.row_one] at hlt
    omega
  | succ i =>
    rw [hk] at hlt hle
    have hprev := Nat.find_min hsome (m := i) (by omega)
    obtain ⟨b, hb, rfl⟩ := (h.rows ⟨i, hle⟩).surjOn (by
      simp only [Finset.coe_Ico, Set.mem_Ico]
      exact ⟨not_lt.mp hprev, hlt⟩)
    exact ⟨b, (mem_rowOf.mp hb).1, rfl⟩

/-- What the owner's round writes at a slot stays. -/
theorem perEntry (h : Carries t H R B slot) {M : Type} (init : ℕ → M) (f : ℕ → ℕ → M)
    {b : Bond (Fin n) (Fin 3)} (hb : b ∈ B) : t.perEntry init f (slot b) = f (b.src + 1) (slot b) := by
  have hround : ∀ (i : ℕ) (l : List ℕ) (arr : ℕ → M), (l.foldl (fun arr s =>
      Function.update arr s (f i s)) arr) (slot b) = if slot b ∈ l then f i (slot b) else arr (slot b) := by
    intro i l
    induction l with
    | nil => exact fun arr => rfl
    | cons s l ih =>
      intro arr
      rw [List.foldl_cons, ih]
      by_cases hl : slot b ∈ l
      · rw [if_pos hl, if_pos (List.mem_cons_of_mem s hl)]
      · by_cases hs : slot b = s
        · rw [if_neg hl, if_pos (hs ▸ List.mem_cons_self), hs, Function.update_self]
        · rw [if_neg hl, if_neg (by simp [hs, hl]), Function.update_of_ne hs]
  have hrange : ∀ i, 1 ≤ i → i ≤ n → (slot b ∈ List.range' (t.row i) (t.countFor i) ↔ i = b.src + 1) := by
    intro i hi hn
    have hle := h.row_le i hi hn
    have hcount : t.countFor i = t.row (i + 1) - t.row i := rfl
    rw [List.mem_range'_1]
    constructor
    · intro hs
      exact h.src_eq hb hi hn (Finset.mem_Ico.mpr (by omega))
    · rintro rfl
      have hown := (h.rows b.src).mapsTo (mem_rowOf.mpr ⟨hb, rfl⟩)
      simp only [Finset.coe_Ico, Set.mem_Ico] at hown
      have hnext : t.row ((b.src : ℕ) + 1 + 1) = t.row (b.src + 2) := rfl
      omega
  have hall : ∀ m, m ≤ n → ((List.range' 1 m).foldl (fun arr i =>
      (List.range' (t.row i) (t.countFor i)).foldl (fun arr s => Function.update arr s (f i s)) arr) init)
        (slot b) = if b.src + 1 ≤ m then f (b.src + 1) (slot b) else init (slot b) := by
    intro m hm
    induction m with
    | zero => exact (if_neg (by omega)).symm
    | succ m ih =>
      rw [List.range'_1_concat, List.foldl_append, List.foldl_cons, List.foldl_nil, hround,
        ih (by omega)]
      simp only [hrange (1 + m) (by omega) (by omega)]
      by_cases hlast : 1 + m = b.src + 1
      · rw [if_pos hlast, if_pos (by omega), hlast]
      · rw [if_neg hlast]
        refine if_congr (by omega) rfl rfl
  have hsrc := b.src.isLt
  rw [NeighborTable.perEntry, h.natoms, hall n le_rfl, if_pos (by omega)]

end Carries

section Calls
variable {v : Vesin ℝ} {t : TableState v} {cell : Fin 3 → Fin 3 → ℝ} {cutoff : ℝ} {heap : Heap ℝ}
  {kernel : NeighborTable ℝ → Except (Int32 × String) (ℝ × (Fin n → Fin 3 → ℝ))}

/-- A build that returns zero leaves a table that carries the bonds within the cutoff. -/
theorem build_carries (hfull : t.ReportsFull R cell cutoff) (hcell : (cellRows cell).det ≠ 0)
    (hoff : ∀ b : Bond (Fin n) (Fin 3), b.src ≠ b.dst → length (cellRows cell) R b ≠ cutoff) :
    let built := t.neighborTableBuild ⟨3, n, R, cell, cutoff, none, none⟩ heap
    built.1.1 = 0 →
      ∃ slot, Carries built.2.toNeighborTable (cellRows cell) R (within (cellRows cell) R cutoff) slot := by
  intro built hbuild
  obtain ⟨nl, hreports, hbuilt⟩ := hfull.build hbuild
  rw [hbuilt]
  exact exists_carries _ hcell hoff hreports heap

/-- A call that returns zero ran its kernel on such a table. -/
theorem evaluate_carries (hfull : t.ReportsFull R cell cutoff)
    {checks : Except (Int32 × String) Unit} (hcell : (cellRows cell).det ≠ 0)
    (hoff : ∀ b : Bond (Fin n) (Fin 3), b.src ≠ b.dst → length (cellRows cell) R b ≠ cutoff)
    (hchecks : ∀ e, checks = .error e → e.1 ≠ 0) (hkernel : ∀ t e, kernel t = .error e → e.1 ≠ 0) :
    let out := (evaluate checks t ⟨3, n, R, cell⟩ cutoff heap kernel).1
    out.status = 0 → ∃ t slot, Carries t (cellRows cell) R (within (cellRows cell) R cutoff) slot ∧
      kernel t = .ok (out.energy, out.forces) := by
  intro out hstatus
  simp only [out, evaluate] at hstatus ⊢
  cases hc : checks with
  | error e =>
    rw [hc] at hstatus
    exact absurd hstatus (hchecks e hc)
  | ok _ =>
    rw [hc] at hstatus
    dsimp only at hstatus ⊢
    split
    · rename_i hbuild
      rw [if_pos hbuild] at hstatus
      exact absurd hstatus hbuild
    · rename_i hbuild
      rw [if_neg hbuild] at hstatus
      obtain ⟨slot, hcarries⟩ := build_carries hfull hcell hoff (not_not.mp hbuild)
      refine ⟨_, slot, hcarries, ?_⟩
      cases hk : kernel (t.neighborTableBuild
          ⟨3, n, R, cell, cutoff, none, none⟩ heap).2.toNeighborTable with
      | error e =>
        rw [hk] at hstatus
        exact absurd hstatus (hkernel _ e hk)
      | ok out => rfl

/-- A kernel that accepts every table that carries bonds adds no error of its own. -/
theorem evaluate_accepts (hfull : t.ReportsFull R cell cutoff) (hcell : (cellRows cell).det ≠ 0)
    (hoff : ∀ b : Bond (Fin n) (Fin 3), b.src ≠ b.dst → length (cellRows cell) R b ≠ cutoff)
    (hkernel : ∀ t slot, Carries t (cellRows cell) R (within (cellRows cell) R cutoff) slot →
      ∃ out, kernel t = .ok out) :
    (evaluate (.ok ()) t ⟨3, n, R, cell⟩ cutoff heap kernel).1.status =
      (t.neighborTableBuild ⟨3, n, R, cell, cutoff, none, none⟩ heap).1.1 := by
  simp only [evaluate]
  split
  · rfl
  · rename_i hbuild
    obtain ⟨slot, hcarries⟩ := build_carries hfull hcell hoff (not_not.mp hbuild)
    obtain ⟨out, hout⟩ := hkernel _ slot hcarries
    rw [hout]
    exact (not_not.mp hbuild).symm

end Calls
end Carries
section Listing

open Classical in
/-- A vesin that lists afresh at every call. -/
noncomputable def listing : Vesin ℝ where
  NeighborList := ℝ
  create cutoff _ := cutoff
  compute cutoff n R cell per :=
    let near : Set (Bond (Fin n) (Fin 3)) := {b | ¬ (b.src = b.dst ∧ b.shift = 0) ∧
      Lattice.Supported per b.shift ∧ length (cellRows cell) R b ≤ cutoff}
    if h : near.Finite then (⟨0, "", h.toFinset.toList.map (pairAt (cellRows cell) R)⟩, cutoff)
    else (⟨1, "infinitely many images", []⟩, cutoff)

noncomputable def listing_documented : listing.Documented where
  Serves nl cutoff _ held := nl = cutoff ∧ held = none
  create _ _ := ⟨rfl, rfl⟩
  keeps := by
    rintro nl cutoff skin held ⟨rfl, rfl⟩ n R cell per
    refine ⟨none, ⟨?_, rfl⟩, by simp⟩
    simp only [listing]
    split <;> rfl
  reports := by
    rintro nl cutoff skin held ⟨rfl, rfl⟩ n R cell per - hstatus
    simp only [listing] at hstatus ⊢
    split
    · rename_i hfinite
      refine ⟨_, Finset.nodup_toList _, rfl, ?_, ?_⟩
      · intro b hb
        rw [Finset.mem_toList, Set.Finite.mem_toFinset] at hb
        exact hb.2.2
      · intro b hself hper hlt
        rw [Finset.mem_toList, Set.Finite.mem_toFinset]
        exact ⟨hself, hper, hlt.le⟩
    · rename_i hinfinite
      rw [dif_neg hinfinite] at hstatus
      cases hstatus

noncomputable def emptyHeap : Heap ℝ := ⟨fun _ => 0, fun _ => 0, fun _ _ => 0, fun _ => 0⟩

theorem listing_status {t : TableState listing} {cell : Fin 3 → Fin 3 → ℝ}
    (ht : t.Serving listing_documented cell) {n : ℕ} (R : Places (Fin n) (Fin 3)) (cutoff : ℝ)
    (heap : Heap ℝ) (hcell : (cellRows cell).det ≠ 0) :
    (t.neighborTableBuild ⟨3, n, R, cell, cutoff, none, none⟩ heap).1 = (0, "") := by
  have hfinite : {b : Bond (Fin n) (Fin 3) | ¬ (b.src = b.dst ∧ b.shift = 0) ∧
      Lattice.Supported (fun _ => true) b.shift ∧ length (cellRows cell) R b ≤ cutoff}.Finite :=
    (finite_length_le hcell R cutoff).subset fun b hb => hb.2.2
  obtain ⟨held, ⟨hcutoff, -⟩, -⟩ := ht.calculator cutoff (0.1 * cutoff)
  have hstatus : (listing.compute (t.calculator cutoff (0.1 * cutoff)) n R cell fun _ => true).1.status
      = 0 := by
    rw [hcutoff]
    simp only [listing]
    rw [dif_pos hfinite]
  rw [TableState.neighborTableBuild, dif_pos rfl]
  exact congrArg Prod.fst (if_neg (not_not.mpr hstatus))

theorem listing_evaluate {t : TableState listing} {cell : Fin 3 → Fin 3 → ℝ}
    (ht : t.Serving listing_documented cell) {n : ℕ} (R : Places (Fin n) (Fin 3)) (cutoff : ℝ)
    (heap : Heap ℝ) (hcell : (cellRows cell).det ≠ 0)
    {kernel : NeighborTable ℝ → Except (Int32 × String) (ℝ × (Fin n → Fin 3 → ℝ))}
    (hkernel : ∀ t, ∃ out, kernel t = .ok out) :
    (evaluate (.ok ()) t ⟨3, n, R, cell⟩ cutoff heap kernel).1.status = 0 :=
  (evaluate_status hkernel).trans (congrArg Prod.fst (listing_status ht R cutoff heap hcell))

def cube (L : ℝ) : Fin 3 → Fin 3 → ℝ := fun d k => if d = k then L else 0

theorem det_cube {L : ℝ} (hL : L ≠ 0) : (cellRows (cube L)).det ≠ 0 := by
  have hdiagonal : cellRows (cube L) = Matrix.diagonal fun _ => L := by
    ext k d
    simp [cellRows, cube, Matrix.diagonal_apply, eq_comm]
  rw [hdiagonal, Matrix.det_diagonal, Finset.prod_const]
  exact pow_ne_zero _ hL

theorem vector_cube {n : ℕ} (L : ℝ) (R : Places (Fin n) (Fin 3)) (b : Bond (Fin n) (Fin 3))
    (d : Fin 3) : vector (cellRows (cube L)) R b d = R d b.dst - R d b.src + b.shift d * L := by
  simp [vector, Matrix.vecMul, dotProduct, cellRows, cube]

/-- In a wide cube the images of the atoms of a small cluster are far away. -/
theorem le_length_of_shift {n : ℕ} {L w : ℝ} {R : Places (Fin n) (Fin 3)} (hL : 0 ≤ L)
    (hw : ∀ d a c, |R d a - R d c| ≤ w) {b : Bond (Fin n) (Fin 3)} (hshift : b.shift ≠ 0) :
    L - w ≤ length (cellRows (cube L)) R b := by
  obtain ⟨d, hd⟩ := Function.ne_iff.mp hshift
  have hsq : length (cellRows (cube L)) R b * length (cellRows (cube L)) R b =
      Lattice.normSq (vector (cellRows (cube L)) R b) := Lattice.len_mul_self _
  have hentry := Lattice.abs_le_of_normSq_le (length_nonneg _ _ b) hsq.ge d
  have hfar : L ≤ |(b.shift d : ℝ) * L| := by
    have hone : (1 : ℝ) ≤ |(b.shift d : ℝ)| := by exact_mod_cast Int.one_le_abs hd
    rw [abs_mul, abs_of_nonneg hL]
    exact le_mul_of_one_le_left hL hone
  rw [vector_cube] at hentry
  have hdiff := abs_sub_abs_le_abs_sub ((b.shift d : ℝ) * L) (-(R d b.dst - R d b.src))
  rw [abs_neg, sub_neg_eq_add, add_comm ((b.shift d : ℝ) * L)] at hdiff
  have := hw d b.dst b.src
  linarith

/-- A right triangle with the sides 1.74, 2.32 and 2.9. -/
def trimer : Places (Fin 3) (Fin 3) := ![![0, 1.74, 0], ![0, 0, 2.32], ![0, 0, 0]]

/-- The lengths of the trimer's bonds. -/
def IsSide (r : ℝ) : Prop := r = 1.74 ∨ r = 2.32 ∨ r = 2.9

theorem IsSide.bounds {r : ℝ} (h : IsSide r) : 1.7 < r ∧ r ≤ 2.9 := by
  rcases h with rfl | rfl | rfl <;> norm_num

theorem trimer_length {b : Bond (Fin 3) (Fin 3)} (hne : b.src ≠ b.dst) (hshift : b.shift = 0) :
    IsSide (length (cellRows (cube 100)) trimer b) := by
  have hsq : length (cellRows (cube 100)) trimer b * length (cellRows (cube 100)) trimer b =
      Lattice.normSq (vector (cellRows (cube 100)) trimer b) := Lattice.len_mul_self _
  have hnonneg := length_nonneg (cellRows (cube 100)) trimer b
  have side : ∀ r : ℝ, 0 ≤ r → Lattice.normSq (vector (cellRows (cube 100)) trimer b) = r * r →
      length (cellRows (cube 100)) trimer b = r := by
    intro r hr heq
    exact (mul_self_inj hnonneg hr).mp (hsq.trans heq)
  have hnorm : Lattice.normSq (vector (cellRows (cube 100)) trimer b) = ∑ d, (trimer d b.dst -
      trimer d b.src) * (trimer d b.dst - trimer d b.src) := by
    rw [Lattice.normSq, dotProduct]
    refine Finset.sum_congr rfl fun d _ => ?_
    rw [vector_cube, hshift, Pi.zero_apply, Int.cast_zero, zero_mul, add_zero]
  rw [Fin.sum_univ_three] at hnorm
  obtain ⟨src, dst, shift⟩ := b
  have first : (src = 0 ∧ dst = 1 ∨ src = 1 ∧ dst = 0) ∨ (src = 0 ∧ dst = 2 ∨ src = 2 ∧ dst = 0) ∨
      src = 1 ∧ dst = 2 ∨ src = 2 ∧ dst = 1 := by
    dsimp only at hne
    omega
  rcases first with h | h | h
  · refine Or.inl (side _ (by norm_num) (hnorm.trans ?_))
    rcases h with ⟨rfl, rfl⟩ | ⟨rfl, rfl⟩ <;> simp [trimer]
  · refine Or.inr (Or.inl (side _ (by norm_num) (hnorm.trans ?_)))
    rcases h with ⟨rfl, rfl⟩ | ⟨rfl, rfl⟩ <;> simp [trimer]
  · refine Or.inr (Or.inr (side _ (by norm_num) (hnorm.trans ?_)))
    rcases h with ⟨rfl, rfl⟩ | ⟨rfl, rfl⟩ <;> simp [trimer] <;> norm_num

theorem trimer_far {b : Bond (Fin 3) (Fin 3)} (hshift : b.shift ≠ 0) :
    97 ≤ length (cellRows (cube 100)) trimer b := by
  have hwide : ∀ d a c, |trimer d a - trimer d c| ≤ 3 := by
    intro d a c
    fin_cases d <;> fin_cases a <;> fin_cases c <;> simp [trimer] <;> norm_num
  have := le_length_of_shift (L := 100) (by norm_num) hwide hshift
  linarith

/-- A cutoff below the images leaves the sides of the triangle. -/
theorem trimer_within {rcut : ℝ} (hcut : rcut ≤ 97) {b : Bond (Fin 3) (Fin 3)}
    (hb : b ∈ within (cellRows (cube 100)) trimer rcut) :
    b.shift = 0 ∧ IsSide (length (cellRows (cube 100)) trimer b) := by
  obtain ⟨hne, hlt⟩ := (mem_within (det_cube (by norm_num))).mp hb
  have hshift : b.shift = 0 := by
    by_contra hshift
    exact (hlt.trans_le hcut).not_ge (trimer_far hshift)
  exact ⟨hshift, trimer_length hne hshift⟩

theorem trimer_off {rcut : ℝ} (hlong : 2.9 < rcut) (hcut : rcut < 97) (b : Bond (Fin 3) (Fin 3))
    (hb : b.src ≠ b.dst) : length (cellRows (cube 100)) trimer b ≠ rcut := by
  by_cases hshift : b.shift = 0
  · exact ((trimer_length hb hshift).bounds.2.trans_lt hlong).ne
  · exact (hcut.trans_le (trimer_far hshift)).ne'

/-- The table has served two atoms in the same cell before. -/
noncomputable def servedTwo (cutoff : ℝ) : List (TableCall ℝ) :=
  [.build ⟨3, 2, fun _ a => if a = 0 then 0 else 2, cube 100, cutoff, none, none⟩ emptyHeap]

theorem serving_servedTwo (cutoff : ℝ) : ((table listing).after (.fresh listing)
    (servedTwo cutoff)).Serving listing_documented (cube 100) := by
  refine TableState.serving_after listing_documented fun x heap hmem => ?_
  cases List.mem_singleton.mp hmem
  rfl

end Listing
end Rgpot.Fortran
