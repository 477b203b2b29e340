import Rgpot.Lib.Root
import Rgpot.Metatomic.CachedTypes

/-! `MetatomicPot` with its whole configuration: the constructor and the force call over the torch
libraries. -/
namespace Rgpot.MetatomicEngine
open Metatomic Engines

inductive TorchDeterminismPolicy where
  | Fast | Strict
  deriving DecidableEq

/-- The defaults are those of the source's aggregate; the members that set the passes up are shared. -/
structure MetatomicConfig (K : Type) [Field K] extends Metatomic.MetatomicConfig where
  model_path : String := ""
  device : String := ""
  length_unit : String := "angstrom"
  extensions_directory : String := ""
  check_consistency : Bool := false
  uncertainty_threshold : K := -1
  dtype_override : String := ""
  torch_determinism : TorchDeterminismPolicy := .Fast
  engine_path : String := ""
  task_name : String := ""
  charge : Int32 := 0
  spin : Int32 := 1
  attach_system_extras : Bool := false

/-- The flags of `at::globalContext()` and the profiling mode of the graph executor. -/
structure GlobalContext where
  profilingMode : Bool
  deterministicAlgorithms : Bool
  deterministicAlgorithmsWarnOnly : Bool
  deterministicFillUninitializedMemory : Bool
  deterministicCuDNN : Bool
  benchmarkCuDNN : Bool
  sdpUseFlash : Bool
  sdpUseMemEfficient : Bool
  sdpUseCuDNN : Bool
  sdpUseMath : Bool
  allowTF32CuBLAS : Bool
  allowTF32CuDNN : Bool
  deriving DecidableEq

def apply_torch_determinism_policy (policy : TorchDeterminismPolicy) (ctx : GlobalContext) :
    GlobalContext :=
  if policy ≠ .Strict then ctx
  else { ctx with
    deterministicAlgorithms := true
    deterministicAlgorithmsWarnOnly := false
    deterministicFillUninitializedMemory := true
    deterministicCuDNN := true
    benchmarkCuDNN := false
    sdpUseFlash := false
    sdpUseMemEfficient := false
    sdpUseCuDNN := false
    sdpUseMath := true
    allowTF32CuBLAS := false
    allowTF32CuDNN := false }

/-- What the libraries throw: standard exceptions, or `c10::Error`. -/
inductive TorchExn where
  | std (e : Exn)
  | c10 (what : String)
  deriving DecidableEq

def TorchExn.what : TorchExn → String
  | .std (.invalidArgument what) => what
  | .std (.overflowError what) => what
  | .std (.runtimeError what) => what
  | .c10 what => what

inductive ScalarType where
  | kFloat32 | kFloat64
  deriving DecidableEq

structure RequestedOutput where
  per_atom : Bool
  explicit_gradients : List String
  quantity : String
  unit : String

structure EvaluationOptions where
  length_unit : String
  outputs : List (String × RequestedOutput)

/-- `outputs` says whether an output is per atom. -/
structure ModelCapabilities where
  supported_devices : List String
  dtype : String
  outputs : List (String × Bool)

/-- A one-by-one tensor map under its name and property. -/
structure SystemData (K : Type) where
  name : String
  property : String
  value : K

structure VesinPair (K : Type) where
  first : ℕ
  second : ℕ
  shift : Fin 3 → Int32
  vector : Fin 3 → K

structure NeighborBlock (K : Type) where
  samples : List (Int32 × Int32 × (Fin 3 → Int32))
  vectors : List (Fin 3 → K)

structure System (K Request : Type) (n : ℕ) where
  types : Option ((m : ℕ) × (Fin m → Int32))
  positions : Rows K n
  cell : Rows K 3
  pbc : Fin 3 → Bool
  data : List (SystemData K)
  neighbor_lists : List (Request × NeighborBlock K)

/-- What `forward` returns: the values under a key, and the gradient of the positions after `backward`
on them. -/
structure ModelOutput (K : Type) (n : ℕ) where
  contains : String → Bool
  values : String → Except TorchExn (List K)
  backward : String → Except TorchExn (Rows K n)

/-- The torch libraries and vesin. Moving a model leaves a model also where it throws. -/
structure Libraries (K : Type) where
  Module : Type
  Device : Type
  Request : Type
  load_atomistic_model : GlobalContext → String → Option String → Except TorchExn Module
  capabilities : Module → Except TorchExn ModelCapabilities
  requested_neighbor_lists : Module → Except TorchExn (List Request)
  pick_device : List String → Option String → Except TorchExn Device
  toDevice : Module → Device → Module × Option TorchExn
  toScalarType : Module → ScalarType → Module × Option TorchExn
  pick_output : String → List (String × Bool) → Except TorchExn String
  set_length_unit : String → Except TorchExn Unit
  random_so3 : Device → ScalarType → ℕ → Rows K 3
  /-- `.to(dtype)` of a number. -/
  convert : ScalarType → K → K
  norm : ScalarType → (Fin 3 → K) → K
  newSystem : (n : ℕ) → Device → ScalarType → System K Request n → Except TorchExn Unit
  engine_cutoff : Request → String → Except TorchExn K
  full_list : Request → Bool
  to_string : K → String
  vesin_neighbors : K → Bool → (n : ℕ) → Rows K n → Rows K 3 → (Fin 3 → Bool) →
    Except (Option String) (List (VesinPair K))
  register_autograd_neighbors : (n : ℕ) → System K Request n → NeighborBlock K → Bool →
    Except TorchExn Unit
  add_neighbor_list : (n : ℕ) → System K Request n → Request → NeighborBlock K → Except TorchExn Unit
  forward : GlobalContext → Module → Device → ScalarType → (n : ℕ) → System K Request n →
    EvaluationOptions → Bool → Except TorchExn (ModelOutput K n)

variable {K : Type} [Field K] [LinearOrder K]

structure MetatomicPot (lib : Libraries K) where
  m_config : MetatomicConfig K
  m_model : lib.Module
  m_nl_requests : List lib.Request
  m_eval_options : EvaluationOptions
  m_dtype : ScalarType
  m_device : lib.Device
  m_check_consistency : Bool
  m_energy_key : String
  m_energy_uncertainty_key : String
  m_uncertainty_threshold : K

section Construct

def is_mixed_mts_to_error (what : String) : Bool :=
  "metatensor and non-metatensor".toList <:+: what.toList

/-- The mixed-dict error is swallowed. -/
def move_atomistic_model {α : Type} (moved : α × Option TorchExn) : α × Option TorchExn :=
  match moved with
  | (model, some (.c10 what)) => if is_mixed_mts_to_error what then (model, none) else moved
  | _ => moved

/-- An empty string is no value. -/
def optional (s : String) : Option String := if s = "" then none else some s

def nativeDtype (dtype : String) : Except TorchExn ScalarType :=
  if dtype = "float64" then .ok .kFloat64
  else if dtype = "float32" then .ok .kFloat32
  else .error (.std (.runtimeError ("Unsupported dtype: " ++ dtype)))

def overrideDtype (dtype_override : String) (native : ScalarType) : ScalarType :=
  if dtype_override ≠ "" then
    if dtype_override = "float64" then .kFloat64
    else if dtype_override = "float32" then .kFloat32
    else native
  else native

def energyOutput (per_atom : Bool) : RequestedOutput := ⟨per_atom, [], "energy", "eV"⟩

/-- An output that is there already stays. -/
def insertOutput (outputs : List (String × RequestedOutput)) (key : String) (output : RequestedOutput) :
    List (String × RequestedOutput) :=
  if (outputs.lookup key).isSome then outputs else outputs ++ [(key, output)]

variable (lib : Libraries K)

/-- The key of the uncertainty and the threshold that is kept, and whether the output is requested. -/
def uncertaintyOutput (threshold : K) (outputs : List (String × Bool)) : String × K × Bool :=
  if threshold > 0 then
    match lib.pick_output "energy_uncertainty" outputs with
    | .error _ => ("", -1, false)
    | .ok key =>
      match outputs.lookup key with
      | some true => (key, threshold, true)
      | _ => (key, -1, false)
  else ("", threshold, false)

/-- The model in the chosen type, or in its own where that throws. -/
def moveDtype (dtype_override : String) (native : ScalarType) (model : lib.Module) :
    lib.Module × ScalarType :=
  let m_dtype := overrideDtype dtype_override native
  if dtype_override ≠ "" ∧ m_dtype ≠ native then
    match move_atomistic_model (lib.toScalarType model m_dtype) with
    | (model, none) => (model, m_dtype)
    | (model, some _) => (model, native)
  else (model, m_dtype)

/-- The constructor behind the global flags. -/
def MetatomicPot.load (ctx : GlobalContext) (c : MetatomicConfig K) :
    Except TorchExn (MetatomicPot lib) := do
  let model ← lib.load_atomistic_model ctx c.model_path (optional c.extensions_directory)
  let capabilities ← lib.capabilities model
  let m_nl_requests ← lib.requested_neighbor_lists model
  let m_device ← lib.pick_device capabilities.supported_devices (optional c.device)
  let native ← nativeDtype capabilities.dtype
  let model ← match move_atomistic_model (lib.toDevice model m_device) with
    | (model, none) => .ok model
    | (_, some e) => .error e
  let (m_model, m_dtype) := moveDtype lib c.dtype_override native model
  let m_energy_key ← lib.pick_output "energy" capabilities.outputs
  let per_atom ← match capabilities.outputs.lookup m_energy_key with
    | some per_atom => .ok per_atom
    | none => .error (.std (.runtimeError "Missing energy output in metatomic model"))
  lib.set_length_unit c.length_unit
  let outputs := [(m_energy_key, energyOutput per_atom)]
  let (key, threshold, requested) := uncertaintyOutput lib c.uncertainty_threshold capabilities.outputs
  return {
    m_config := c
    m_model
    m_nl_requests
    m_eval_options := {
      length_unit := c.length_unit
      outputs := if requested then insertOutput outputs key (energyOutput true) else outputs }
    m_dtype
    m_device
    m_check_consistency := c.check_consistency
    m_energy_key
    m_energy_uncertainty_key := key
    m_uncertainty_threshold := threshold }

/-- The constructor; the flags are set also where it throws. -/
def MetatomicPot.make (ctx : GlobalContext) (c : MetatomicConfig K) :
    Except TorchExn (MetatomicPot lib) × GlobalContext :=
  let ctx := apply_torch_determinism_policy c.torch_determinism { ctx with profilingMode := false }
  (MetatomicPot.load lib ctx c, ctx)

end Construct

section Force
variable {lib : Libraries K}

/-- The charge and spin maps of a system. -/
def extras (convert : K → K) (charge spin : Int32) : List (SystemData K) :=
  [⟨"rgpot::charge", "charge", convert (charge.toInt : K)⟩,
    ⟨"rgpot::spin_multiplicity", "spin_multiplicity", convert (spin.toInt : K)⟩,
    ⟨"rgpot::spin", "spin", convert (spin.toInt : K)⟩]

def MetatomicPot.attached (pot : MetatomicPot lib) : List (SystemData K) :=
  if pot.m_config.attach_system_extras then
    extras (lib.convert pot.m_dtype) pot.m_config.charge pot.m_config.spin
  else []

def vesinError (cutoff : String) (n : ℕ) (full : Bool) (error_message : Option String) : String :=
  "vesin_neighbors failed" ++
    (match error_message with
    | some message => ": " ++ message
    | none => " (no message; check vesin header/lib major match — need " ++
        "vesin>=0.6 for current engines)") ++
    " cutoff=" ++ cutoff ++ " nAtoms=" ++ toString n ++ " full=" ++ if full then "1" else "0"

variable {n : ℕ}

/-- What a pass reads of a potential. -/
structure PassSetup (lib : Libraries K) where
  rotations : Metatomic.MetatomicConfig
  length_unit : String
  data : List (SystemData K)
  model : lib.Module
  requests : List lib.Request
  options : EvaluationOptions
  dtype : ScalarType
  device : lib.Device
  check_consistency : Bool
  energy_key : String
  uncertainty_key : String
  threshold : K

def MetatomicPot.setup (pot : MetatomicPot lib) : PassSetup lib where
  rotations := pot.m_config.toMetatomicConfig
  length_unit := pot.m_config.length_unit
  data := pot.attached
  model := pot.m_model
  requests := pot.m_nl_requests
  options := pot.m_eval_options
  dtype := pot.m_dtype
  device := pot.m_device
  check_consistency := pot.m_check_consistency
  energy_key := pot.m_energy_key
  uncertainty_key := pot.m_energy_uncertainty_key
  threshold := pot.m_uncertainty_threshold

namespace PassSetup
variable (setup : PassSetup lib)

def computeNeighbors (request : lib.Request) (pos : Rows K n) (cell : Rows K 3) (periodic : Fin 3 → Bool) :
    Except TorchExn (NeighborBlock K) := do
  let cutoff ← lib.engine_cutoff request setup.length_unit
  let full := lib.full_list request
  match lib.vesin_neighbors cutoff full n pos cell periodic with
  | .error message =>
    .error (.std (.runtimeError (vesinError (lib.to_string cutoff) n full message)))
  | .ok pairs =>
    return ⟨pairs.map fun p => (Int32.ofNat p.first, Int32.ofNat p.second, p.shift),
      pairs.map fun p d => lib.convert setup.dtype (p.vector d)⟩

def addNeighbors (pos : Rows K n) (cell : Rows K 3) (system : System K lib.Request n)
    (request : lib.Request) : Except TorchExn (System K lib.Request n) := do
  let neighbors ← setup.computeNeighbors request pos cell system.pbc
  lib.register_autograd_neighbors n system neighbors setup.check_consistency
  lib.add_neighbor_list n system request neighbors
  return { system with neighbor_lists := system.neighbor_lists ++ [(request, neighbors)] }

/-- The system of a pass, from the rotated coordinates. -/
def newSystem (types : Option ((m : ℕ) × (Fin m → Int32))) (pos : Rows K n) (cell : Rows K 3) :
    Except TorchExn (System K lib.Request n) := do
  let torch_cell : Rows K 3 := fun i k => lib.convert setup.dtype (cell i k)
  let system : System K lib.Request n := {
    types
    positions := fun i k => lib.convert setup.dtype (pos i k)
    cell := torch_cell
    pbc := fun k => (0.000000001 : K) < |lib.norm setup.dtype (torch_cell k)|
    data := setup.data
    neighbor_lists := [] }
  lib.newSystem n setup.device setup.dtype system
  setup.requests.foldlM (setup.addNeighbors pos cell) system

end PassSetup

/-- The accumulators of the loop. -/
structure PassSums (K : Type) (n : ℕ) where
  energy_acc : K
  forces_acc : Rows K n
  force_samples : List (Rows K n)
  model_uq_variance : Option K

/-- `mean()` of a tensor that is not empty. -/
def mean (values : List K) : K := values.sum / values.length

namespace PassSetup
variable (setup : PassSetup lib)

/-- The uncertainty is read from the first pass, where it can be. -/
def uncertainty (output : ModelOutput K n) (i_pass : ℕ) (before : Option K) : Option K :=
  if setup.threshold > 0 ∧ i_pass = 0 ∧ setup.uncertainty_key ≠ "" ∧
      output.contains setup.uncertainty_key = true then
    match output.values setup.uncertainty_key with
    | .ok (v :: vs) => some (mean (v :: vs))
    | _ => before
  else before

/-- The body of the loop over the passes. -/
def pass (ctx : GlobalContext) (types : Option ((m : ℕ) × (Fin m → Int32))) (pos : Rows K n)
    (box : Rows K 3) (sums : PassSums K n) (i_pass : ℕ) : Except TorchExn (PassSums K n) := do
  let c := setup.rotations
  let R := c.rotation (lib.random_so3 setup.device setup.dtype) i_pass
  let rotated := c.use_rotation && !c.identity_pass i_pass
  let pos := if rotated then about R pos else pos
  let cell := if rotated then matmul box (transpose R) else box
  let system ← setup.newSystem types pos cell
  let output ← lib.forward ctx setup.model setup.device setup.dtype n system setup.options
    setup.check_consistency
  let energies ← output.values setup.energy_key
  let model_uq_variance := setup.uncertainty output i_pass sums.model_uq_variance
  let e_pass := energies.sum
  let grad ← output.backward setup.energy_key
  let forces : Rows K n := fun i k => -grad i k
  let forces := if c.use_rotation then matmul forces R else forces
  if c.identity_pass i_pass then
    return ⟨e_pass, forces, sums.force_samples, model_uq_variance⟩
  else if c.probe_scatter then
    return ⟨sums.energy_acc, sums.forces_acc, sums.force_samples ++ [forces], model_uq_variance⟩
  else
    return ⟨sums.energy_acc + e_pass, fun i k => sums.forces_acc i k + forces i k,
      if 1 < c.n_passes then sums.force_samples ++ [forces] else sums.force_samples,
      model_uq_variance⟩

end PassSetup

/-- What a force call writes. -/
structure Results (K : Type) (n : ℕ) where
  energy : K
  F : Rows K n
  variance : K

variable [OutwardRoot K]

/-- The RMS of the forces of the orientations about `forces`. -/
def forceScatter (samples : List (Rows K n)) (forces : Rows K n) : K :=
  let acc2 := (samples.map fun F => ∑ i, ∑ k, (F i k - forces i k) * (F i k - forces i k)).sum
  let n_comp : K := (n : K) * 3 * samples.length
  if n_comp > 0 then OutwardRoot.sqrt (acc2 / n_comp) else 0

def PassSetup.results (setup : PassSetup lib) (sums : PassSums K n) : Results K n :=
  let inv : K := inv_n setup.rotations
  let forces : Rows K n := fun i k => sums.forces_acc i k * inv
  { energy := sums.energy_acc * inv
    F := forces
    variance := match sums.model_uq_variance with
      | some v => v
      | none =>
        if 1 < setup.rotations.n_passes ∧ sums.force_samples ≠ [] then
          forceScatter sums.force_samples forces
        else 0 }

/-- The force call on the species it holds. -/
def PassSetup.forceImpl (setup : PassSetup lib) (ctx : GlobalContext) (input : Engines.ForceInput K)
    (s : CachedTypes) : Except TorchExn (Results K input.nAtoms) × CachedTypes :=
  let s := s.prepare input
  let sums := (List.range setup.rotations.n_passes).foldlM
    (setup.pass ctx s.m_cached_types (rows input.pos) (cell input.box)) ⟨0, fun _ _ => 0, [], none⟩
  (sums.map setup.results, s)

/-- `MetatomicPot::forceImpl`. -/
def MetatomicPot.forceImpl (pot : MetatomicPot lib) (ctx : GlobalContext) (input : Engines.ForceInput K)
    (s : CachedTypes) : Except TorchExn (Results K input.nAtoms) × CachedTypes :=
  pot.setup.forceImpl ctx input s

end Force

end Rgpot.MetatomicEngine
