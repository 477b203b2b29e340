import Rgpot.Lib.Fallible
import Rgpot.ForceStructs
import Rgpot.Uma.Contract
import Rgpot.Uma.Tensors

/-! `UmaPot`'s force calls: one system at a time, or chunks of a band package's batch. -/
namespace Rgpot.Uma
open Fill

/-- What the force calls do with `double`s themselves. -/
class Reals (D : Type) extends Zero D, Add D, Sub D, Div D, NatCast D where
  /-- `x > 0.0`. -/
  positive : D → Bool
  isfinite : D → Bool

inductive Failure where
  | contract (e : UmaContractError)
  | thrown (e : Exn)
  deriving DecidableEq

structure ForceInput (D : Type) where
  nAtoms : ℕ
  pos : List (Row D)
  atmnrs : List ℤ
  box : Fin 9 → D
  length_pos : pos.length = nAtoms
  length_atmnrs : atmnrs.length = nAtoms

/-- `F` is the caller's buffer. -/
structure ForceOut (D : Type) where
  F : ℕ → D
  energy : D
  variance : D

/-- The slots of results, and which of them have been written so far, in order. -/
structure Outs (D : Type) where
  out : ℕ → ForceOut D
  writes : List ℕ

/-- What a loaded package fixes, beside the configuration. -/
structure Impl (D : Type) where
  config : UmaConfig
  cutoff : D
  molecular_box : D
  max_neighbors : ℤ
  batch_max : ℤ
  contract : UmaContract

/-- The code outside: loading a package, vesin, sorting, the compiled graph, and what a fresh tensor
holds. -/
structure Env (D : Type) where
  load : Except Failure (Impl D)
  vesin : (input : ForceInput D) → D → Except (Option String) (List (VesinPair input.nAtoms))
  sorts : Sorts
  run : Inputs D → Except Exn (List (List D))
  empty : Tensors D

variable {D : Type} [Reals D]

/-- Centre molecular inputs at zero before conversion to model precision. -/
def molecularFrame (positions : List (Row D)) (length : D) :
    Except Failure (List (Row D) × (Fin 9 → D)) :=
  if positions = [] ∨ ¬ Reals.positive length ∨ ¬ Reals.isfinite length then
    .error (.thrown (.invalidArgument "molecular frame requires atoms and a finite cell"))
  else
    let center : Row D := fun d => positions.foldl (fun c p => c + p d) 0 / (positions.length : D)
    .ok (positions.map fun p d => p d - center d, fun k => if (k : ℕ) % 4 = 0 then length else 0)

theorem length_molecularFrame {positions pos : List (Row D)} {length : D} {box : Fin 9 → D}
    (h : molecularFrame positions length = .ok (pos, box)) : pos.length = positions.length := by
  unfold molecularFrame at h
  split at h
  · cases h
  · cases h
    exact List.length_map _

/-- The coordinates and the cell a system is evaluated in. -/
def localInput (impl : Impl D) (input : ForceInput D) : Except Failure (ForceInput D) :=
  if Reals.positive impl.molecular_box then
    match h : molecularFrame input.pos impl.molecular_box with
    | .error e => .error e
    | .ok (pos, box) =>
      .ok { input with pos, box, length_pos := (length_molecularFrame h).trans input.length_pos }
  else .ok input

def runtime {α : Type} (what : String) : Except Failure α := .error (.thrown (.runtimeError what))

/-- One system in its own frame with its own edges. -/
def systemOf (env : Env D) (impl : Impl D) (input : ForceInput D) : Except Failure (System D) := do
  let input ← localInput impl input
  match vesinFairchemEdges env.sorts (env.vesin input impl.cutoff) impl.max_neighbors with
  | .error what => runtime what
  | .ok edges => return ⟨input.pos, input.atmnrs, input.box, edges⟩

def checkContract (impl : Impl D) (input : ForceInput D) : Except Failure Unit := do
  (impl.contract.checkConfig impl.config).mapError .contract
  (impl.contract.checkSystem input.atmnrs).mapError .contract

/-- The first two tensors of a run. -/
def outputsOf (env : Env D) (inputs : Inputs D) : Except Failure (List D × List D) := do
  let outputs ← (env.run inputs).mapError .thrown
  match outputs with
  | e :: f :: _ => return (e, f)
  | _ => runtime "UmaPot: AOTI package returned <2 tensors"

/-- The plain graph on one system. -/
def evalSingle (env : Env D) (impl : Impl D) (input : ForceInput D) : Except Failure (D × List D) := do
  let s ← systemOf env impl input
  if s.edges.count = 0 then
    runtime "UmaPot: vesin produced no edges"
  let (energies, forces) ← outputsOf env (singleInputs s impl.config.charge impl.config.spin)
  match energies with
  | [energy] =>
    if forces.length ≠ input.nAtoms * 3 then
      runtime "UmaPot: force tensor shape mismatch"
    return (energy, forces)
  | _ => runtime "a Tensor with other than one element cannot be converted to Scalar"

/-- `in_at`: a chunk padded to the traced size by its last system. -/
def padded (bmax : ℕ) (chunk : List (ForceInput D)) : List (ForceInput D) :=
  (List.range bmax).filterMap fun b => chunk[if b < chunk.length then b else chunk.length - 1]?

/-- The inputs of the band graph for one chunk. -/
def chunkInputs (env : Env D) (impl : Impl D) (n bmax : ℕ) (chunk : List (ForceInput D)) :
    Except Failure (Inputs D) := do
  let systems ← (padded bmax chunk).mapM (systemOf env impl)
  if systems.foldl (fun total s => total + s.edges.count) 0 = 0 then
    runtime "UmaPot: vesin produced no edges (batch)"
  return bandInputs n env.empty systems impl.config.charge impl.config.spin

/-- The band graph on one chunk. -/
def evalChunk (env : Env D) (impl : Impl D) (n bmax : ℕ) (chunk : List (ForceInput D)) :
    Except Failure (List D × List D) := do
  let inputs ← chunkInputs env impl n bmax chunk
  let (energies, forces) ← outputsOf env inputs
  if energies.length ≠ bmax ∨ forces.length ≠ bmax * n * 3 then
    runtime "UmaPot: batch output shape mismatch"
  return (energies, forces)

/-- One slot: energy, no variance, and the first `count` forces. -/
def Outs.write (s : Outs D) (slot : ℕ) (energy : D) (count : ℕ) (f : ℕ → D) : Outs D where
  out := Function.update s.out slot ⟨fill (s.out slot).F 0 count f, energy, 0⟩
  writes := s.writes ++ [slot]

/-- The real results of a chunk; those of the padding are not read. -/
def writeChunk (n slot count : ℕ) (energies forces : List D) (s : Outs D) : Outs D :=
  (List.range count).foldl (fun s b => s.write (slot + b) (energies.getD b 0) (n * 3)
    fun i => forces.getD (b * n * 3 + i) 0) s

/-- What a call leaves, and how it ends. -/
abbrev Ended (D : Type) : Type := Outs D × Except Failure Unit

/-- The chunks from `start` on. -/
def chunkLoop (env : Env D) (impl : Impl D) (n bmax : ℕ) (systems : List (ForceInput D))
    (out start : ℕ) (s : Outs D) : Ended D :=
  if start < systems.length ∧ 0 < bmax then
    let chunk := (systems.drop start).take bmax
    match evalChunk env impl n bmax chunk with
    | .error e => (s, .error e)
    | .ok (energies, forces) =>
      chunkLoop env impl n bmax systems out (start + bmax)
        (writeChunk n (out + start) chunk.length energies forces s)
  else (s, .ok ())
termination_by systems.length - start

/-- Every system has the first one's atoms in its order. -/
def uniform (first : ForceInput D) (systems : List (ForceInput D)) : Bool :=
  systems.all fun input => input.nAtoms = first.nAtoms ∧ input.atmnrs = first.atmnrs

/-- A loop over the systems of a batch that ends with the first failure. -/
def fallback (force : ForceInput D → ℕ → Outs D → Option (Ended D)) :
    List (ForceInput D) → ℕ → Outs D → Option (Ended D)
  | [], _, s => some (s, .ok ())
  | input :: systems, slot, s =>
    match force input slot s with
    | none => none
    | some (s, .error e) => some (s, .error e)
    | some (s, .ok ()) => fallback force systems (slot + 1) s

mutual

/-- `forceImpl`, with so many calls left on the stack; results go to `slot`. -/
def forceImpl (env : Env D) : ℕ → ForceInput D → ℕ → Outs D → Option (Ended D)
  | 0, _, _, _ => none
  | depth + 1, input, slot, s =>
    if input.nAtoms = 0 then some (s, runtime "UmaPot: nAtoms == 0")
    else match env.load with
    | .error e => some (s, .error e)
    | .ok impl =>
      match checkContract impl input with
      | .error e => some (s, .error e)
      | .ok () =>
        if impl.batch_max > 1 then forceBatchImpl env depth [input] slot s
        else match evalSingle env impl input with
        | .error e => some (s, .error e)
        | .ok (energy, forces) =>
          some (s.write slot energy (input.nAtoms * 3) fun i => forces.getD i 0, .ok ())

/-- `forceBatchImpl`; result `i` goes to `slot + i`. -/
def forceBatchImpl (env : Env D) : ℕ → List (ForceInput D) → ℕ → Outs D → Option (Ended D)
  | 0, _, _, _ => none
  | depth + 1, systems, slot, s =>
    match systems with
    | [] => some (s, .ok ())
    | first :: _ =>
      match env.load with
      | .error e => some (s, .error e)
      | .ok impl =>
        if impl.batch_max ≤ 1 then fallback (forceImpl env depth) systems slot s
        else if ¬ uniform first systems then
          some (s, runtime "UmaPot: band package requires one composition per batch")
        else match checkContract impl first with
        | .error e => some (s, .error e)
        | .ok () =>
          some (chunkLoop env impl first.nAtoms impl.batch_max.toNat systems slot 0 s)

end

section Depth
variable (env : Env D)

/-- A call of the plain graph on one system. -/
def plainCall (impl : Impl D) (input : ForceInput D) (slot : ℕ) (s : Outs D) : Ended D :=
  if input.nAtoms = 0 then (s, runtime "UmaPot: nAtoms == 0")
  else match checkContract impl input with
  | .error e => (s, .error e)
  | .ok () =>
    match evalSingle env impl input with
    | .error e => (s, .error e)
    | .ok (energy, forces) =>
      (s.write slot energy (input.nAtoms * 3) fun i => forces.getD i 0, .ok ())

/-- The plain graph on the systems of a batch, up to the first failure. -/
def plainLoop (impl : Impl D) : List (ForceInput D) → ℕ → Outs D → Ended D
  | [], _, s => (s, .ok ())
  | input :: systems, slot, s =>
    match plainCall env impl input slot s with
    | (s, .error e) => (s, .error e)
    | (s, .ok ()) => plainLoop impl systems (slot + 1) s

/-- A call of the band graph. -/
def bandCall (impl : Impl D) (first : ForceInput D) (systems : List (ForceInput D)) (slot : ℕ)
    (s : Outs D) : Ended D :=
  if ¬ uniform first systems then
    (s, runtime "UmaPot: band package requires one composition per batch")
  else match checkContract impl first with
  | .error e => (s, .error e)
  | .ok () => chunkLoop env impl first.nAtoms impl.batch_max.toNat systems slot 0 s

variable {env}

theorem forceImpl_plain {impl : Impl D} (hload : env.load = .ok impl) (hmax : impl.batch_max ≤ 1)
    (depth : ℕ) (input : ForceInput D) (slot : ℕ) (s : Outs D) :
    forceImpl env (depth + 1) input slot s = some (plainCall env impl input slot s) := by
  rw [forceImpl, hload, plainCall]
  simp only [if_neg (not_lt.mpr hmax)]
  split
  · rfl
  · split
    · rfl
    · split <;> rfl

theorem forceBatchImpl_band {impl : Impl D} (hload : env.load = .ok impl)
    (hmax : 1 < impl.batch_max) (depth : ℕ) (first : ForceInput D) (rest : List (ForceInput D))
    (slot : ℕ) (s : Outs D) : forceBatchImpl env (depth + 1) (first :: rest) slot s =
      some (bandCall env impl first (first :: rest) slot s) := by
  rw [forceBatchImpl, hload, bandCall]
  simp only [if_neg (not_le.mpr hmax)]
  split
  · rfl
  · split <;> rfl

theorem fallback_plain {impl : Impl D} (hload : env.load = .ok impl) (hmax : impl.batch_max ≤ 1)
    (depth : ℕ) (systems : List (ForceInput D)) (slot : ℕ) (s : Outs D) :
    fallback (forceImpl env (depth + 1)) systems slot s =
      some (plainLoop env impl systems slot s) := by
  induction systems generalizing slot s with
  | nil => rfl
  | cons input systems ih =>
    rw [fallback, forceImpl_plain hload hmax, plainLoop]
    rcases plainCall env impl input slot s with ⟨s', e | _⟩
    · rfl
    · exact ih (slot + 1) s'

/-- What a batch call does, without the depth of the stack. -/
def batchResult (env : Env D) (systems : List (ForceInput D)) (slot : ℕ) (s : Outs D) : Ended D :=
  match systems with
  | [] => (s, .ok ())
  | first :: _ =>
    match env.load with
    | .error e => (s, .error e)
    | .ok impl =>
      if impl.batch_max ≤ 1 then plainLoop env impl systems slot s
      else bandCall env impl first systems slot s

/-- Two calls on the stack are enough for a batch, whatever `batch_max` is. -/
theorem forceBatchImpl_eq (depth : ℕ) (systems : List (ForceInput D)) (slot : ℕ) (s : Outs D) :
    forceBatchImpl env (depth + 2) systems slot s = some (batchResult env systems slot s) := by
  cases systems with
  | nil => rw [forceBatchImpl]; rfl
  | cons first rest =>
    cases hload : env.load with
    | error e =>
      rw [forceBatchImpl, batchResult, hload]
    | ok impl =>
      rcases le_or_gt impl.batch_max 1 with hmax | hmax
      · rw [forceBatchImpl, batchResult, hload]
        simp only [if_pos hmax]
        exact fallback_plain hload hmax depth _ slot s
      · rw [forceBatchImpl_band hload hmax, batchResult, hload]
        simp only [if_neg (not_le.mpr hmax)]

/-- What a single call does, without the depth of the stack. -/
def forceResult (env : Env D) (input : ForceInput D) (slot : ℕ) (s : Outs D) : Ended D :=
  if input.nAtoms = 0 then (s, runtime "UmaPot: nAtoms == 0")
  else match env.load with
  | .error e => (s, .error e)
  | .ok impl =>
    match checkContract impl input with
    | .error e => (s, .error e)
    | .ok () =>
      if impl.batch_max > 1 then bandCall env impl input [input] slot s
      else plainCall env impl input slot s

/-- Two calls on the stack are enough for one system, which goes through the batch at most once. -/
theorem forceImpl_eq (depth : ℕ) (input : ForceInput D) (slot : ℕ) (s : Outs D) :
    forceImpl env (depth + 2) input slot s = some (forceResult env input slot s) := by
  cases hload : env.load with
  | error e =>
    rw [forceImpl, forceResult, hload]
    split <;> rfl
  | ok impl =>
    rcases le_or_gt impl.batch_max 1 with hmax | hmax
    · rw [forceImpl_plain hload hmax, forceResult, hload]
      simp only [if_neg (not_lt.mpr hmax)]
      rw [plainCall]
      split
      · rfl
      · split <;> rfl
    · rw [forceImpl, forceResult, hload]
      simp only [if_pos hmax, forceBatchImpl_band hload hmax]
      split
      · rfl
      · split <;> rfl

end Depth

end Rgpot.Uma
