import Rgpot.Lib.Fill
import Rgpot.Uma.EdgeList

/-! The tensors a UMA package is run on: one system, or systems concatenated with offset edges. -/
namespace Rgpot.Uma
open Fill

/-- Coordinates `3 i`, `3 i + 1`, `3 i + 2` of an array. -/
abbrev Row (α : Type) : Type := Fin 3 → α

/-- One system as the model sees it. -/
structure System (D : Type) where
  pos : List (Row D)
  atomic_numbers : List ℤ
  cell : Fin 9 → D
  edges : EdgeList

/-- What `loader->run` is given; `nedges` in a band package only. The tensors are in the model's
precision and on its device. -/
structure Inputs (D : Type) where
  pos : List (Row D)
  atomic_numbers : List ℤ
  cell : List (Fin 9 → D)
  pbc : List (Row Bool)
  neighbor : List ℤ
  center : List ℤ
  cell_offsets : List (Row ℤ)
  charge : List ℤ
  spin : List ℤ
  batch : List ℤ
  natoms : List ℤ
  nedges : Option (List ℤ)

namespace EdgeList

def count (e : EdgeList) : ℕ := e.neighbor.length

def neighborAt (e : EdgeList) (k : ℕ) : ℕ := e.neighbor.getD k 0
def centerAt (e : EdgeList) (k : ℕ) : ℕ := e.center.getD k 0
def offsetAt (e : EdgeList) (k : ℕ) : Row ℤ := fun d => e.offsets.getD (3 * k + d) 0

end EdgeList

section Single
variable {D : Type}

/-- The tensors of the plain graph. -/
def singleInputs (s : System D) (charge spin : ℤ) : Inputs D where
  pos := s.pos
  atomic_numbers := s.atomic_numbers
  cell := [s.cell]
  pbc := [fun _ => true]
  neighbor := (List.range s.edges.count).map fun e => (s.edges.neighborAt e : ℤ)
  center := (List.range s.edges.count).map fun e => (s.edges.centerAt e : ℤ)
  cell_offsets := (List.range s.edges.count).map s.edges.offsetAt
  charge := [charge]
  spin := [spin]
  batch := List.replicate s.pos.length 0
  natoms := [(s.pos.length : ℤ)]
  nedges := none

end Single

section Band
variable {D : Type} [Zero D]

/-- The tensors of a chunk while they are filled, and the offset of the next edge. -/
structure Tensors (D : Type) where
  pos : ℕ → Row D
  atomic_numbers : ℕ → ℤ
  cell : ℕ → Fin 9 → D
  neighbor : ℕ → ℤ
  center : ℕ → ℤ
  cell_offsets : ℕ → Row ℤ
  batch : ℕ → ℤ
  e_at : ℕ

/-- The rows of system `b`. -/
def putSystem (n : ℕ) (t : Tensors D) (b : ℕ) (s : System D) : Tensors D where
  pos := fill t.pos (b * n) n fun i => s.pos.getD i 0
  atomic_numbers := fill t.atomic_numbers (b * n) n fun i => s.atomic_numbers.getD i 0
  cell := Function.update t.cell b s.cell
  neighbor := fill t.neighbor t.e_at s.edges.count fun e => s.edges.neighborAt e + b * n
  center := fill t.center t.e_at s.edges.count fun e => s.edges.centerAt e + b * n
  cell_offsets := fill t.cell_offsets t.e_at s.edges.count s.edges.offsetAt
  batch := fill t.batch (b * n) n fun _ => b
  e_at := t.e_at + s.edges.count

/-- The loop over the systems of a chunk, from uninitialised tensors. -/
def putSystems (n : ℕ) (empty : Tensors D) (systems : List (System D)) : Tensors D :=
  systems.zipIdx.foldl (fun t x => putSystem n t x.2 x.1) { empty with e_at := 0 }

/-- The inputs of the band graph. -/
def bandInputs (n : ℕ) (empty : Tensors D) (systems : List (System D)) (charge spin : ℤ) : Inputs D :=
  let t := putSystems n empty systems
  let nedges_total := systems.foldl (fun total s => total + s.edges.count) 0
  { pos := contents t.pos (systems.length * n)
    atomic_numbers := contents t.atomic_numbers (systems.length * n)
    cell := contents t.cell systems.length
    pbc := List.replicate systems.length fun _ => true
    neighbor := contents t.neighbor nedges_total
    center := contents t.center nedges_total
    cell_offsets := contents t.cell_offsets nedges_total
    charge := List.replicate systems.length charge
    spin := List.replicate systems.length spin
    batch := contents t.batch (systems.length * n)
    natoms := List.replicate systems.length (n : ℤ)
    nedges := some (systems.map fun s => (s.edges.count : ℤ)) }

end Band

/-! The batch format: systems one after the other, the indices of system `b` moved by `b n`. -/
section Collate
variable {D : Type}

/-- The edges of system `b`, between atoms of the whole batch. -/
def movedBy (n b : ℕ) (s : System D) (at_ : EdgeList → ℕ → ℕ) : List ℤ :=
  (List.range s.edges.count).map fun e => ((at_ s.edges e + b * n : ℕ) : ℤ)

def collate (n : ℕ) (systems : List (System D)) (charge spin : ℤ) : Inputs D where
  pos := systems.flatMap System.pos
  atomic_numbers := systems.flatMap System.atomic_numbers
  cell := systems.map System.cell
  pbc := List.replicate systems.length fun _ => true
  neighbor := systems.zipIdx.flatMap fun x => movedBy n x.2 x.1 EdgeList.neighborAt
  center := systems.zipIdx.flatMap fun x => movedBy n x.2 x.1 EdgeList.centerAt
  cell_offsets := systems.flatMap fun s => (List.range s.edges.count).map s.edges.offsetAt
  charge := List.replicate systems.length charge
  spin := List.replicate systems.length spin
  batch := systems.zipIdx.flatMap fun x => List.replicate n (x.2 : ℤ)
  natoms := List.replicate systems.length (n : ℤ)
  nedges := some (systems.map fun s => (s.edges.count : ℤ))

variable [Zero D]

/-- What is filled in after the systems `done`. -/
structure Filled (n : ℕ) (systems : List (System D)) (t : Tensors D) : Prop where
  pos : contents t.pos (systems.length * n) = systems.flatMap System.pos
  atomic_numbers : contents t.atomic_numbers (systems.length * n) =
    systems.flatMap System.atomic_numbers
  cell : contents t.cell systems.length = systems.map System.cell
  neighbor : contents t.neighbor t.e_at =
    systems.zipIdx.flatMap fun x => movedBy n x.2 x.1 EdgeList.neighborAt
  center : contents t.center t.e_at =
    systems.zipIdx.flatMap fun x => movedBy n x.2 x.1 EdgeList.centerAt
  cell_offsets : contents t.cell_offsets t.e_at =
    systems.flatMap fun s => (List.range s.edges.count).map s.edges.offsetAt
  batch : contents t.batch (systems.length * n) =
    systems.zipIdx.flatMap fun x => List.replicate n (x.2 : ℤ)
  e_at : t.e_at = systems.foldl (fun total s => total + s.edges.count) 0

/-- One system goes behind those that are there. -/
theorem filled_putSystem {n : ℕ} {systems : List (System D)} {t : Tensors D} {s : System D}
    (h : Filled n systems t) (hpos : s.pos.length = n) (hnumbers : s.atomic_numbers.length = n) :
    Filled n (systems ++ [s]) (putSystem n t systems.length s) := by
  have hlength : (systems ++ [s]).length * n = systems.length * n + n := by
    rw [List.length_append, List.length_singleton, Nat.succ_mul]
  have hzip : (systems ++ [s]).zipIdx = systems.zipIdx ++ [(s, systems.length)] := by
    rw [List.zipIdx_append, Nat.zero_add]
    rfl
  constructor
  · rw [hlength, putSystem, contents_fill, h.pos, List.flatMap_append, List.flatMap_singleton]
    subst hpos
    rw [map_range_getD]
  · rw [hlength, putSystem, contents_fill, h.atomic_numbers, List.flatMap_append,
      List.flatMap_singleton]
    subst hnumbers
    rw [map_range_getD]
  · rw [List.length_append, List.length_singleton, putSystem, contents_update, h.cell,
      List.map_append]
    rfl
  · rw [hzip, List.flatMap_append, List.flatMap_singleton, ← h.neighbor]
    exact contents_fill _ _ _ _
  · rw [hzip, List.flatMap_append, List.flatMap_singleton, ← h.center]
    exact contents_fill _ _ _ _
  · rw [List.flatMap_append, List.flatMap_singleton, ← h.cell_offsets]
    exact contents_fill _ _ _ _
  · rw [hlength, hzip, putSystem, contents_fill, h.batch, List.flatMap_append,
      List.flatMap_singleton, List.map_const', List.length_range]
  · rw [List.foldl_append, ← h.e_at]
    rfl

theorem filled_putSystems {n : ℕ} (empty : Tensors D) (systems : List (System D))
    (h : ∀ s ∈ systems, s.pos.length = n ∧ s.atomic_numbers.length = n) :
    Filled n systems (putSystems n empty systems) := by
  induction systems using List.reverseRecOn with
  | nil =>
    have hzero : ([] : List (System D)).length * n = 0 := Nat.zero_mul n
    constructor <;> first | rfl | (rw [hzero]; rfl)
  | append_singleton systems s ih =>
    obtain ⟨hpos, hnumbers⟩ := h s (List.mem_append_right _ List.mem_cons_self)
    have hdone := ih fun x hx => h x (List.mem_append_left _ hx)
    have hlast : putSystems n empty (systems ++ [s]) =
        putSystem n (putSystems n empty systems) systems.length s := by
      rw [putSystems, List.zipIdx_append, List.foldl_append, Nat.zero_add]
      rfl
    rw [hlast]
    exact filled_putSystem hdone hpos hnumbers

/-- The loops build the batch format, whatever the tensors held before. -/
theorem bandInputs_eq_collate {n : ℕ} (empty : Tensors D) (systems : List (System D))
    (charge spin : ℤ) (h : ∀ s ∈ systems, s.pos.length = n ∧ s.atomic_numbers.length = n) :
    bandInputs n empty systems charge spin = collate n systems charge spin := by
  have hf := filled_putSystems empty systems h
  simp only [bandInputs, collate, ← hf.e_at, hf.pos, hf.atomic_numbers, hf.cell, hf.neighbor,
    hf.center, hf.cell_offsets, hf.batch]

end Collate
end Rgpot.Uma
