import Rgpot.Cpmd.Impl

/-! `NWChemPot`: the engine it loads once, and the parameters it stores for it. -/
namespace Rgpot
open Rgpot.Cache (Str)

/-- A `NWChemParams` message; a stanza is known by its serialization. -/
structure NWChemParams where
  basis : String := "sto-3g"
  theory : String := "scf"
  scfType : String := "rhf"
  charge : Int32 := 0
  multiplicity : Int32 := 1
  enginePath : String := ""
  nwchemRoot : String := ""
  task : String := "gradient"
  title : String := ""
  memoryMb : UInt32 := 0
  scratchDir : String := ""
  permanentDir : String := ""
  inputBlocks : List String := []
  inputStanzas : List Str := []
  deriving DecidableEq

/-- The arms of a `PotentialConfig` message. -/
inductive PotentialConfig where
  | none
  | nwchem (params : NWChemParams)
  | cpmd (params : Cpmd.CPMDParams)
  | metatomic
  | lammps

namespace NWChem

inductive Symbol where
  | energy_gradient
  | set_params
  | version
  | available
  deriving DecidableEq

/-- An open engine library. -/
structure Library where
  handle : ℕ
  exports : List Symbol
  deriving DecidableEq

/-- The outside of one call: the environment, the dynamic linker, and whether the engine takes the
parameters. -/
structure Answers where
  getenv : String → Option String
  dlopen : String → Except String Library
  set_params : NWChemParams → Bool

def sym_optional (lib : Library) (s : Symbol) : Option Library :=
  if s ∈ lib.exports then some lib else Option.none

/-- A function pointer is known by the library it was found in. -/
structure EngineBundle where
  energy_gradient : Option Library := Option.none
  set_params : Option Library := Option.none
  version : Option Library := Option.none
  available : Option Library := Option.none
  load_error : String := ""
  loaded : Bool := false
  deriving DecidableEq

def engine_lib_candidates (a : Answers) (explicit_path : String) : List String :=
  (if explicit_path ≠ "" then [explicit_path] else []) ++
    (a.getenv "NWCHEMC_LIBRARY").toList ++ (a.getenv "RGPOT_NWCHEMC_ENGINE").toList ++
    (a.getenv "RGPOT_NWCHEM_ENGINE").toList ++
    ["libnwchemc.so", "./libnwchemc.so", "libnwchemc.dylib", "./libnwchemc.dylib", "nwchemc.dll"]

/-- The first candidate that opens, or the error of the last. -/
def openFirst (a : Answers) : List String → String → Except String Library
  | [], err => .error err
  | cand :: rest, _ =>
    match a.dlopen cand with
    | .ok lib => .ok lib
    | .error err => openFirst a rest err

/-- The bundle after `try_load_engine`; `loaded` is what it returns. -/
def EngineBundle.try_load_engine (a : Answers) (engine_path : String) : EngineBundle :=
  match openFirst a (engine_lib_candidates a engine_path) "" with
  | .error eng_err => { load_error := "libnwchemc not loaded: " ++ eng_err }
  | .ok lib =>
    let b : EngineBundle :=
      { energy_gradient := sym_optional lib .energy_gradient
        set_params := sym_optional lib .set_params
        version := sym_optional lib .version
        available := sym_optional lib .available }
    if b.energy_gradient.isNone then
      { b with load_error := "engine missing nwchemc_energy_gradient" }
    else if b.set_params.isNone then { b with load_error := "engine missing nwchemc_set_params" }
    else { b with loaded := true }

/-- `serialize_params_for_abi`: without the paths that only the host uses. -/
def forAbi (params : NWChemParams) : NWChemParams :=
  { params with enginePath := "", nwchemRoot := "" }

/-- `NWChemPot::Impl`; the two stored messages always belong together. -/
structure Impl where
  bundle : EngineBundle := {}
  params_words : NWChemParams
  abi_params_words : NWChemParams
  engine_path : String := ""
  nwchem_root : String := ""
  stored : abi_params_words = forAbi params_words

namespace Impl

def store (params : NWChemParams) (i : Impl) : Impl :=
  { i with params_words := params, abi_params_words := forAbi params, stored := rfl }

def push_params_to_engine (a : Answers) (b : EngineBundle) (params : NWChemParams) : Bool :=
  b.set_params.isSome && a.set_params params

/-- The constructors: of the given parameters, or of the default message. -/
def construct (a : Answers) (params : NWChemParams) : Impl :=
  { bundle := .try_load_engine a params.enginePath
    params_words := params
    abi_params_words := forAbi params
    engine_path := params.enginePath
    nwchem_root := params.nwchemRoot
    stored := rfl }

/-- `NWChemPot::setParams`; an engine that is loaded stays loaded. -/
def setParams (a : Answers) (params : NWChemParams) (i : Impl) : Bool × Impl :=
  let i := i.store params
  let i := { i with engine_path := params.enginePath, nwchem_root := params.nwchemRoot }
  let i := if i.bundle.loaded then i
    else { i with bundle := .try_load_engine a i.engine_path }
  if i.bundle.loaded then (push_params_to_engine a i.bundle i.abi_params_words, i) else (false, i)

/-- The message `getParams` writes. -/
def getParams (i : Impl) : NWChemParams := i.params_words

/-- `PotentialBase::paramsKey`, which the class does not override. -/
def paramsKey (_ : Impl) : UInt64 := 0

def available (i : Impl) : Bool :=
  i.bundle.loaded && i.bundle.energy_gradient.isSome && i.bundle.set_params.isSome

/-- The parameters the next force call hands to the engine; none when it throws. -/
def forceParams (i : Impl) : Option NWChemParams :=
  if i.available then some i.abi_params_words else Option.none

def params_summary (params : NWChemParams) : String :=
  "basis=" ++ params.basis ++ " theory=" ++ params.theory ++ " scfType=" ++ params.scfType ++
    " charge=" ++ toString params.charge ++ " mult=" ++ toString params.multiplicity ++
    (if params.enginePath ≠ "" then " enginePath=" ++ params.enginePath else "") ++
    (if params.nwchemRoot ≠ "" then " nwchemRoot=" ++ params.nwchemRoot else "")

/-- `NWChemPot::setPotentialConfig`, with its message. -/
def setPotentialConfig (a : Answers) (cfg : PotentialConfig) (i : Impl) : Bool × String × Impl :=
  match cfg with
  | .none => (true, "no-op (rgpot params: none)", i)
  | .nwchem nw =>
    let (ok, i) := i.setParams a nw
    let sum := params_summary nw
    (ok, if ok then "rgpot params applied (nwchem arm): " ++ sum
      else if !i.available then "rgpot params nwchem arm failed (engine not loaded): " ++ sum
      else "rgpot params nwchem arm rejected by embed: " ++ sum, i)
  | .cpmd _ | .metatomic | .lammps =>
    (false, "rgpot params arm not handled by NWChemPot (use matching backend pot)", i)

/-- What a caller can see of the parameters. -/
structure Unchanged (i j : Impl) : Prop where
  getParams : j.getParams = i.getParams
  paramsKey : j.paramsKey = i.paramsKey
  available : j.available = i.available
  forceParams : j.forceParams = i.forceParams

/-- With an engine loaded, the new parameters are stored whatever the engine answers. -/
theorem setParams_of_loaded {i : Impl} (h : i.bundle.loaded = true) (a : Answers)
    (params : NWChemParams) : (i.setParams a params).2 =
      { i.store params with engine_path := params.enginePath, nwchem_root := params.nwchemRoot } ∧
      (i.setParams a params).1 = push_params_to_engine a i.bundle (forAbi params) := by
  simp [setParams, store, h]

/-- A configuration call leaves what a caller sees exactly when its parameters, if it has any, are the
stored ones. -/
theorem unchanged_setPotentialConfig_iff {i : Impl} (h : i.bundle.loaded = true) (a : Answers)
    (cfg : PotentialConfig) : i.Unchanged (i.setPotentialConfig a cfg).2.2 ↔
      ∀ params, cfg = .nwchem params → params = i.params_words := by
  cases cfg with
  | nwchem params =>
    obtain ⟨hstate, -⟩ := setParams_of_loaded h a params
    have hafter : (i.setPotentialConfig a (.nwchem params)).2.2 = (i.setParams a params).2 := rfl
    rw [hafter, hstate]
    constructor
    · intro hsame params' hparams'
      cases hparams'
      exact hsame.getParams
    · intro hsame
      obtain rfl := hsame params rfl
      refine ⟨rfl, rfl, rfl, ?_⟩
      simp only [forceParams, i.stored]
      rfl
  | none | cpmd _ | metatomic | lammps =>
    refine iff_of_true ⟨rfl, rfl, rfl, rfl⟩ ?_
    intro params hparams
    cases hparams

end Impl
end NWChem
end Rgpot
