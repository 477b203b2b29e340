import Rgpot.Fortran.Neighbors
import Rgpot.Lib.Component

/-! A neighbour table over its whole life: builds, some of which fail, and releases. -/
namespace Rgpot.Fortran

/-- What `compute` leaves in a calculator; the pairs are those of a status of zero. -/
structure Computed (K : Type) (natoms : ℕ) where
  status : Int32
  errmsg : String
  pairs : List (Pair K natoms)

/-- The calculator of vesin, with what it caches between calls. -/
structure Vesin (K : Type) where
  NeighborList : Type
  create : (cutoff skin : K) → NeighborList
  compute : NeighborList → (natoms : ℕ) → (Fin 3 → Fin natoms → K) → (Fin 3 → Fin 3 → K) →
    (Fin 3 → Bool) → Computed K natoms × NeighborList

/-- The arguments of a build; `dim` is the first extent of the positions. -/
structure BuildInput (K : Type) where
  dim : ℕ
  natoms : ℕ
  positions : Fin dim → Fin natoms → K
  cell : Fin 3 → Fin 3 → K
  cutoff : K
  periodic : Option (Fin 3 → Bool) := none
  skin : Option K := none

/-- The table with the extent of `row`, zero before it is allocated, and its calculator once that is
ready. -/
structure TableState {K : Type} (v : Vesin K) extends NeighborTable K where
  rowSize : ℕ
  cutoff : K
  skin : K
  nl : Option v.NeighborList

variable {K : Type} [Field K] [DecidableEq K] {v : Vesin K}

namespace TableState

/-- A table as it is declared. -/
def fresh (v : Vesin K) : TableState v where
  natoms := 0
  row _ := 0
  buffers := none
  rowSize := 0
  cutoff := -1
  skin := -1
  nl := none

/-- The calculator for a cutoff and a skin; another one is freed and replaced. -/
def calculator (t : TableState v) (cutoff use_skin : K) : v.NeighborList :=
  match t.nl with
  | some nl => if t.cutoff ≠ cutoff ∨ t.skin ≠ use_skin then v.create cutoff use_skin else nl
  | none => v.create cutoff use_skin

/-- `neighbor_table_build`: the status and the message. -/
def neighborTableBuild (t : TableState v) (x : BuildInput K) (heap : Heap K) :
    (Int32 × String) × TableState v :=
  if h : x.dim = 3 then
    let pbc := x.periodic.getD fun _ => true
    let use_skin := x.skin.getD (0.1 * x.cutoff)
    let nl := t.calculator x.cutoff use_skin
    let (computed, nl) := v.compute nl x.natoms (fun d => x.positions (d.cast h.symm)) x.cell pbc
    let t := { t with cutoff := x.cutoff, skin := use_skin, nl := some nl }
    if computed.status ≠ 0 then
      ((computed.status, "rgpot_neighbors: vesin build failed: " ++ computed.errmsg), t)
    else
      ((0, ""), { t with
        toNeighborTable := t.toNeighborTable.build computed.pairs heap
        rowSize := x.natoms + 1 })
  else ((1, "rgpot_neighbors: positions must be shaped [3, natoms]"), t)

/-- `neighbor_table_release`. -/
def release (t : TableState v) : TableState v := { t with nl := none, cutoff := -1, skin := -1 }

/-- No atoms, no neighbours, and no entry in any row. -/
structure Empty (t : TableState v) : Prop where
  natoms : t.natoms = 0
  countFor : ∀ i, 1 ≤ i → i + 1 ≤ t.rowSize → t.countFor i = 0
  slice : ∀ i, 1 ≤ i → i + 1 ≤ t.rowSize → t.slice i = []
  sequence : t.sequence = []

/-- The rows are those of the atoms. -/
structure Sized (t : TableState v) : Prop where
  rowSize : t.rowSize ≤ t.natoms + 1
  row_one : t.row 1 ≤ 1

omit [DecidableEq K] in
theorem sized_fresh (v : Vesin K) : (fresh v).Sized := ⟨Nat.zero_le _, Nat.zero_le _⟩

omit [Field K] [DecidableEq K] in
theorem Sized.empty_iff {t : TableState v} (h : t.Sized) : t.Empty ↔ t.natoms = 0 := by
  constructor
  · intro hempty
    exact hempty.natoms
  · intro hnatoms
    have hnone : ∀ i, 1 ≤ i → ¬ i + 1 ≤ t.rowSize := by
      intro i hi
      have := h.rowSize
      omega
    have hentries : t.row (t.natoms + 1) - 1 = 0 := by
      rw [hnatoms]
      exact Nat.sub_eq_zero_of_le h.row_one
    refine ⟨hnatoms, fun i hi hsize => absurd hsize (hnone i hi),
      fun i hi hsize => absurd hsize (hnone i hi), ?_⟩
    rw [NeighborTable.sequence, hentries, NeighborTable.entries]
    split
    · rfl
    · rfl

section Build
variable (t : TableState v) (x : BuildInput K) (heap : Heap K)

/-- What a build does: it fails and leaves the table as it was, or it lists the pairs of `x`. -/
theorem build_cases :
    ((t.neighborTableBuild x heap).1.1 ≠ 0 ∧
      (t.neighborTableBuild x heap).2.toNeighborTable = t.toNeighborTable ∧
      (t.neighborTableBuild x heap).2.rowSize = t.rowSize) ∨
    ((t.neighborTableBuild x heap).1.1 = 0 ∧
      (t.neighborTableBuild x heap).2.rowSize = x.natoms + 1 ∧
      ∃ nl : List (Pair K x.natoms),
        (t.neighborTableBuild x heap).2.toNeighborTable = t.toNeighborTable.build nl heap) := by
  unfold neighborTableBuild
  by_cases hdim : x.dim = 3
  · rw [dif_pos hdim]
    dsimp only
    split
    · rename_i hstatus
      exact Or.inl ⟨hstatus, rfl, rfl⟩
    · exact Or.inr ⟨rfl, rfl, _, rfl⟩
  · rw [dif_neg hdim]
    have hone : (1 : Int32) ≠ 0 := by decide
    exact Or.inl ⟨hone, rfl, rfl⟩

variable {t x heap}

theorem Sized.build (h : t.Sized) : (t.neighborTableBuild x heap).2.Sized := by
  rcases t.build_cases x heap with ⟨-, htable, hsize⟩ | ⟨-, hsize, nl, htable⟩
  · constructor
    · rw [hsize, htable]
      exact h.rowSize
    · rw [htable]
      exact h.row_one
  · constructor
    · rw [hsize, htable]
      exact le_rfl
    · rw [htable]
      exact (build_fullList _ nl heap).row_one.le

theorem natoms_build : (t.neighborTableBuild x heap).2.natoms =
    if (t.neighborTableBuild x heap).1.1 = 0 then x.natoms else t.natoms := by
  rcases t.build_cases x heap with ⟨hstatus, htable, -⟩ | ⟨hstatus, -, nl, htable⟩
  · rw [if_neg hstatus, htable]
  · rw [if_pos hstatus, htable]
    rfl

/-- A failed build leaves an empty table only where it found one. -/
theorem Sized.empty_of_failed (h : t.Sized) (hstatus : (t.neighborTableBuild x heap).1.1 ≠ 0) :
    (t.neighborTableBuild x heap).2.Empty ↔ t.natoms = 0 := by
  rw [h.build.empty_iff, natoms_build, if_neg hstatus]

end Build

end TableState

/-- The calls on a table; a build allocates what it needs from `heap`. -/
inductive TableCall (K : Type) where
  | build (x : BuildInput K) (heap : Heap K)
  | release

/-- A table between calls. -/
def table (v : Vesin K) : Component (TableState v) (TableCall K) (fun _ => Unit) (Int32 × String) where
  fresh := .fresh v
  call t
    | .build x heap =>
      let (status, t) := t.neighborTableBuild x heap
      (if status.1 = 0 then .ok () else .error status, t)
    | .release => (.ok (), t.release)

/-- The atoms of the last build of a run that succeeded, `n` where none did. -/
def lastBuilt (v : Vesin K) : TableState v → ℕ → List (TableCall K) → ℕ
  | _, n, [] => n
  | t, n, .release :: calls => lastBuilt v t.release n calls
  | t, n, .build x heap :: calls =>
    let (status, t) := t.neighborTableBuild x heap
    lastBuilt v t (if status.1 = 0 then x.natoms else n) calls

section Runs
open TableState Component

/-- Every run keeps the rows those of the atoms, and the atoms those of the last successful build. -/
theorem sized_after {t : TableState v} (h : t.Sized) (calls : List (TableCall K)) :
    ((table v).after t calls).Sized ∧
      ((table v).after t calls).natoms = lastBuilt v t t.natoms calls := by
  induction calls generalizing t with
  | nil => exact ⟨h, rfl⟩
  | cons call calls ih =>
    cases call with
    | release => exact ih (t := t.release) ⟨h.rowSize, h.row_one⟩
    | build x heap =>
      have hbuild : (t.neighborTableBuild x heap).2.Sized := h.build
      obtain ⟨hsized, hnatoms⟩ := ih hbuild
      rw [natoms_build] at hnatoms
      exact ⟨hsized, hnatoms⟩

/-- Every failed build of a run leaves an empty table exactly when, before each, the last successful build
was of no atoms. -/
theorem failed_build_empty_iff (v : Vesin K) (calls : List (TableCall K)) :
    (∀ before x heap rest, calls = before ++ .build x heap :: rest →
      let t := (table v).after (.fresh v) before
      (t.neighborTableBuild x heap).1.1 ≠ 0 → (t.neighborTableBuild x heap).2.Empty) ↔
    ∀ before x heap rest, calls = before ++ .build x heap :: rest →
      (((table v).after (.fresh v) before).neighborTableBuild x heap).1.1 ≠ 0 →
      lastBuilt v (.fresh v) 0 before = 0 := by
  refine forall₄_congr fun before x heap rest => forall_congr' fun _ => forall_congr' fun hfailed => ?_
  obtain ⟨hsized, hnatoms⟩ := sized_after (sized_fresh v) before
  rw [hsized.empty_of_failed hfailed, hnatoms]
  rfl

/-- vesin on two atoms one apart. -/
def dimer : Vesin ℚ where
  NeighborList := Unit
  create _ _ := ()
  compute _ natoms _ _ _ :=
    match natoms with
    | 2 => (⟨0, "", [⟨0, 1, ![1, 0, 0], 1⟩, ⟨1, 0, ![-1, 0, 0], 1⟩]⟩, ())
    | _ => (⟨0, "", []⟩, ())

def heap : Heap ℚ := ⟨fun _ => 0, fun _ => 0, fun _ _ => 0, fun _ => 0⟩

def apart : BuildInput ℚ :=
  { dim := 3, natoms := 2, positions := ![![0, 1], ![0, 0], ![0, 0]], cell := fun _ _ => 0, cutoff := 2
    periodic := some fun _ => false }

/-- The same positions with two coordinates each. -/
def flat : BuildInput ℚ :=
  { dim := 2, natoms := 2, positions := ![![0, 1], ![0, 0]], cell := fun _ _ => 0, cutoff := 2 }

/-- Refused positions leave the two atoms of the build before. -/
theorem not_failed_build_empty : ¬ ∀ (v : Vesin ℚ) (calls before rest : List (TableCall ℚ)) x heap,
    calls = before ++ .build x heap :: rest →
    let t := (table v).after (.fresh v) before
    (t.neighborTableBuild x heap).1.1 ≠ 0 → (t.neighborTableBuild x heap).2.Empty := by
  intro h
  have hempty := h dimer _ [.build apart heap] [] flat heap rfl (by decide)
  have hnatoms : 2 = 0 := hempty.natoms
  cases hnatoms

end Runs
end Rgpot.Fortran
