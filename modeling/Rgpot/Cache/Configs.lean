import Rgpot.Cache.ParamHash

/-! The configuration of every leaf potential class, with the fingerprint its class hashes. -/
namespace Rgpot.Cache
open Fnv1a

/-- `LJConfig` and `LJClusterConfig`. -/
structure LJConfig where
  u0 : Double
  cutoff : Double
  psi : Double
  switch_width : Double
  deriving DecidableEq

structure MorseConfig where
  De : Double
  a : Double
  re : Double
  cutoff : Double
  switch_width : Double
  deriving DecidableEq

structure ZBLConfig where
  cut_inner : Double
  cut_global : Double
  deriving DecidableEq

/-- The classes of `RGPOT_FORTRAN_POT_CLASS`, which take no configuration. -/
inductive FortranPot where
  | SW | EDIP | Lenosky | Tersoff | EAMAl | FeHe | CuH2 | WaterH
  deriving DecidableEq

inductive GFNMethod where
  | GFNFF | GFN0xTB | GFN1xTB | GFN2xTB
  deriving DecidableEq

structure XTBConfig where
  method : GFNMethod
  accuracy : Double
  electronic_temperature : Double
  max_iterations : Int32
  charge : Double
  uhf : Int32
  deriving DecidableEq

inductive TBLiteMethod where
  | GFN1 | GFN2 | IPEA1
  deriving DecidableEq

structure TBLiteConfig where
  method : TBLiteMethod
  accuracy : Double
  electronic_temperature : Double
  max_iterations : Int32
  charge : Double
  uhf : Int32
  deriving DecidableEq

inductive D3Damping where
  | BJ | Zero
  deriving DecidableEq

structure D3Config where
  damping : D3Damping
  functional : Str
  atm : Bool
  deriving DecidableEq

structure D4Config where
  functional : Str
  charge : Double
  atm : Bool
  deriving DecidableEq

inductive TorchDeterminismPolicy where
  | Fast | Strict
  deriving DecidableEq

/-- The fields `MetatomicPot` reads. -/
structure MetatomicConfig where
  model_path : Str
  device : Str
  length_unit : Str
  extensions_directory : Str
  check_consistency : Bool
  uncertainty_threshold : Double
  dtype_override : Str
  random_rotation : Bool
  n_symmetry_rotations : Int64
  so3_probe_scatter : Bool
  torch_determinism : TorchDeterminismPolicy
  charge : Int32
  spin : Int32
  attach_system_extras : Bool
  deriving DecidableEq

structure MOPACConfig where
  charge : Int32
  spin : Int32
  model : Int32
  tolerance : Double
  max_time : Int32
  engine_path : Str
  deriving DecidableEq

structure SkalaConfig where
  xc : Str
  basis : Str
  charge : Int32
  multiplicity : Int32
  engine_path : Str
  nwchem_root : Str
  deriving DecidableEq

structure UmaConfig where
  model_path : Str
  task_name : Str
  device : Str
  charge : Int32
  spin : Int32
  cutoff : Double
  max_neighbors : Int32
  deriving DecidableEq

/-- An `NWChemParams` message: as the engine is handed it, with the two host paths cleared, and
the paths. -/
structure NWChemConfig where
  abi_params : Str
  engine_path : Str
  nwchem_root : Str
  deriving DecidableEq

/-- What `create_from_plugin` is given: the plugin, its configuration and its units, which are
angstrom and eV where it declares none. The functions of the descriptor go by a number. -/
structure PluginConfig where
  name : Str
  version : Str
  config : Str
  length_unit : Str
  energy_unit : Str
  functions : ℕ
  deriving DecidableEq

/-- A configuration of a leaf class. CPMD holds a serialized parameter message. -/
inductive Config where
  | lj (c : LJConfig)
  | ljCluster (c : LJConfig)
  | morse (c : MorseConfig)
  | zbl (c : ZBLConfig)
  | fortran (pot : FortranPot)
  | xtb (c : XTBConfig)
  | tblite (c : TBLiteConfig)
  | d3 (c : D3Config)
  | d4 (c : D4Config)
  | metatomic (c : MetatomicConfig)
  | mopac (c : MOPACConfig)
  | nwchem (c : NWChemConfig)
  | cpmd (params : Str)
  | skala (c : SkalaConfig)
  | uma (c : UmaConfig)
  | plugin (c : PluginConfig)
  deriving DecidableEq

/-- `v != 0.0`. -/
def nonzero (v : Double) : Bool := v != 0 && v != 0x8000000000000000

/-- `v > 0.0` and finite. -/
def positiveFinite (v : Double) : Bool := decide (0 < v) && decide (v < 0x7ff0000000000000)

/-- The literal `"rgpot-plugin-abi-1"`. -/
def pluginSalt : Str :=
  ⟨[114, 103, 112, 111, 116, 45, 112, 108, 117, 103, 105, 110, 45, 97, 98, 105, 45, 49], by decide⟩

/-- Hashed only when set. -/
def switchBytes (switch_width : Double) : List UInt8 :=
  if nonzero switch_width then f64 switch_width else []

def LJConfig.fingerprint (c : LJConfig) : List UInt8 :=
  u64 1 ++ (f64 c.u0 ++ (f64 c.cutoff ++ (f64 c.psi ++ switchBytes c.switch_width)))

def MorseConfig.fingerprint (c : MorseConfig) : List UInt8 :=
  u64 1 ++ (f64 c.De ++ (f64 c.a ++ (f64 c.re ++ (f64 c.cutoff ++ switchBytes c.switch_width))))

def ZBLConfig.fingerprint (c : ZBLConfig) : List UInt8 :=
  u64 1 ++ (f64 c.cut_inner ++ (f64 c.cut_global ++ []))

/-- `CPMDPot::Impl::recomputeParamsKey`: the whole message, behind its size. -/
def cpmdFingerprint (params : Str) : List UInt8 := u64 1 ++ (str params ++ [])

def SkalaConfig.fingerprint (c : SkalaConfig) : List UInt8 :=
  u64 1 ++ (str c.xc ++ (str c.basis ++ (i64 c.charge ++ (i64 c.multiplicity ++
    (str c.engine_path ++ (str c.nwchem_root ++ []))))))

/-- `UmaPot::recomputeParamsKey`: neither `cutoff` nor `max_neighbors`. -/
def UmaConfig.fingerprint (c : UmaConfig) : List UInt8 :=
  u64 2 ++ (str c.model_path ++ (str c.task_name ++ (str c.device ++ (i64 c.charge ++
    (i64 c.spin ++ [])))))

def PluginConfig.fingerprint (c : PluginConfig) : List UInt8 :=
  str pluginSalt ++ (str c.name ++ (str c.version ++ (str c.config ++ (str c.length_unit ++
    (str c.energy_unit ++ [])))))

namespace Config

def type : Config → PotType
  | lj _ => .LJ
  | ljCluster _ => .LJCluster
  | morse _ => .Morse
  | zbl _ => .ZBL
  | fortran .SW => .SWSi
  | fortran .EDIP => .EDIP
  | fortran .Lenosky => .LenoskySi
  | fortran .Tersoff => .TersoffSi
  | fortran .EAMAl => .EAMAl
  | fortran .FeHe => .FeHe
  | fortran .CuH2 => .CuH2
  | fortran .WaterH => .WaterH
  | xtb _ => .XTB
  | tblite _ => .TBLite
  | d3 _ => .D3
  | d4 _ => .D4
  | metatomic _ => .Metatomic
  | mopac _ => .MOPAC
  | nwchem _ => .NWChem
  | cpmd _ => .CPMD
  | skala _ => .Skala
  | uma _ => .Uma
  | plugin _ => .UNKNOWN

/-- The bytes a class hashes; none for a class without an override of `paramsKey`. -/
def fingerprint : Config → Option (List UInt8)
  | lj c => some c.fingerprint
  | ljCluster c => some c.fingerprint
  | morse c => some c.fingerprint
  | zbl c => some c.fingerprint
  | cpmd params => some (cpmdFingerprint params)
  | skala c => some c.fingerprint
  | uma c => some c.fingerprint
  | plugin c => some c.fingerprint
  | fortran _ | xtb _ | tblite _ | d3 _ | d4 _ | metatomic _ | mopac _ | nwchem _ => none

/-- The first word hashed: a version of the kernel, or the length of the plugin literal. -/
def salt : Config → UInt64
  | uma _ => 2
  | plugin _ => 18
  | _ => 1

/-- `paramsKey()`; the default is 0. -/
def paramsKey (c : Config) : UInt64 :=
  match c.fingerprint with
  | some data => Fnv1a.h data
  | none => 0

/-- The switch width the pair kernels act on: an unswitched one is all the same. -/
def switch (v : Double) : Double := if nonzero v then v else 0

end Config

/-- What `ensureLoaded` reads of a package's metadata; nothing where a key holds no number. -/
structure UmaPackage where
  cutoff : Option Double
  max_neighbors : Option Int32

/-- What the constructor of `MetatomicPot` finds in a model: the module and its extensions as they
load, whether its dtype is float64, whether its weights can be moved to the other dtype, whether it
has a per-atom `energy_uncertainty`, and the device `pick_device` gives it for the desired one. -/
structure MetatomicModel where
  loaded : Str
  float64 : Bool
  converts : Bool
  uncertainty : Bool
  pick_device : Option Str → Str

/-- The files and libraries of the process's system: the package and the model behind the paths of a
configuration, and the engine that an explicit engine path leads to, if one loads. -/
structure Files where
  uma : Str → UmaPackage
  metatomic : Str → Option Str → MetatomicModel
  mopacc : Str → Option Str
  nwchemc : Str → Option Str

/-- `std::string::empty` turned into a missing value. -/
def given (s : Str) : Option Str := if s.bytes = [] then none else some s

def float64 : Str := ⟨[102, 108, 111, 97, 116, 54, 52], by decide⟩

def float32 : Str := ⟨[102, 108, 111, 97, 116, 51, 50], by decide⟩

def noBytes : Str := ⟨[], by decide⟩

/-- What a C function reads of a string: up to its first null character. -/
def c_str (s : Str) : Str where
  bytes := s.bytes.takeWhile (· ≠ 0)
  size_lt := (List.takeWhile_sublist _).length_le.trans_lt s.size_lt

def D3Config.effective (c : D3Config) : D3Config := { c with functional := c_str c.functional }

def D4Config.effective (c : D4Config) : D4Config := { c with functional := c_str c.functional }

/-- `n_rot_passes`, where a group of rotations stands for the counts that select it; a random
rotation is the first of the seeded ones. -/
def MetatomicConfig.rotations (c : MetatomicConfig) : Int64 :=
  if c.n_symmetry_rotations ≤ 0 then (if c.random_rotation then 1 else 0)
  else if c.n_symmetry_rotations < 12 then c.n_symmetry_rotations
  else if c.n_symmetry_rotations < 24 then 12
  else 24

/-- `m_dtype` of the constructor. -/
def MetatomicConfig.dtype (c : MetatomicConfig) (model : MetatomicModel) : Str :=
  if c.dtype_override = float64 then if model.float64 || model.converts then float64 else float32
  else if c.dtype_override = float32 then
    if model.float64 && !model.converts then float64 else float32
  else if model.float64 then float64 else float32

/-- `m_uncertainty_threshold`, of which only the sign is read. -/
def MetatomicConfig.threshold (c : MetatomicConfig) (model : MetatomicModel) : Double :=
  if 0 < c.uncertainty_threshold ∧ c.uncertainty_threshold ≤ 0x7ff0000000000000 ∧
    model.uncertainty then 0x3ff0000000000000 else 0xbff0000000000000

/-- `charge` and `spin` reach the model with `attach_system_extras` only. -/
def MetatomicConfig.effective (files : Files) (c : MetatomicConfig) : MetatomicConfig :=
  let model := files.metatomic c.model_path (given c.extensions_directory)
  { c with
    model_path := model.loaded
    extensions_directory := noBytes
    device := model.pick_device (given c.device)
    uncertainty_threshold := c.threshold model
    dtype_override := c.dtype model
    random_rotation := false
    n_symmetry_rotations := c.rotations
    so3_probe_scatter := c.so3_probe_scatter && decide (0 < c.n_symmetry_rotations)
    charge := if c.attach_system_extras then c.charge else 0
    spin := if c.attach_system_extras then c.spin else 0 }

/-- Without an engine no other parameter is read: every call throws. -/
def MOPACConfig.effective (files : Files) (c : MOPACConfig) : MOPACConfig :=
  match files.mopacc c.engine_path with
  | some engine => { c with engine_path := engine }
  | none => ⟨0, 0, 0, 0, 0, noBytes⟩

def NWChemConfig.effective (files : Files) (c : NWChemConfig) : NWChemConfig :=
  match files.nwchemc c.engine_path with
  | some engine => { c with engine_path := engine }
  | none => ⟨noBytes, noBytes, noBytes⟩

/-- `m_impl->cutoff` after `ensureLoaded`: the package's, or else the configured one, which the
constructor replaces by 6 when it is not positive and finite. -/
def UmaConfig.cutoffUsed (files : Files) (c : UmaConfig) : Double :=
  (files.uma c.model_path).cutoff.getD
    (if positiveFinite c.cutoff then c.cutoff else 0x4018000000000000)

/-- `m_impl->max_neighbors` after `ensureLoaded`, where only a positive one cuts. -/
def UmaConfig.maxNeighborsUsed (files : Files) (c : UmaConfig) : Int32 :=
  let m := (files.uma c.model_path).max_neighbors.getD c.max_neighbors
  if 0 < m then m else 0

def UmaConfig.effective (files : Files) (c : UmaConfig) : UmaConfig :=
  { c with cutoff := c.cutoffUsed files, max_neighbors := c.maxNeighborsUsed files }

namespace Config

/-- What the kernel computes from: configurations that differ only in what the class never reads,
or reads and overrides, are one. -/
def effective (files : Files) : Config → Config
  | lj c => lj { c with switch_width := switch c.switch_width }
  | ljCluster c => ljCluster { c with switch_width := switch c.switch_width }
  | morse c => morse { c with switch_width := switch c.switch_width }
  | d3 c => d3 c.effective
  | d4 c => d4 c.effective
  | metatomic c => metatomic (c.effective files)
  | mopac c => mopac (c.effective files)
  | nwchem c => nwchem (c.effective files)
  | uma c => uma (c.effective files)
  | c => c

/-- Two configurations of one class agree on what the class reads and does not hash. -/
def LeftOutAgree (files : Files) : Config → Config → Prop
  | xtb c, xtb c' => c = c'
  | tblite c, tblite c' => c = c'
  | d3 c, d3 c' => c.effective = c'.effective
  | d4 c, d4 c' => c.effective = c'.effective
  | metatomic c, metatomic c' => c.effective files = c'.effective files
  | mopac c, mopac c' => c.effective files = c'.effective files
  | nwchem c, nwchem c' => c.effective files = c'.effective files
  | uma c, uma c' =>
    c.fingerprint = c'.fingerprint →
      c.cutoffUsed files = c'.cutoffUsed files ∧
        c.maxNeighborsUsed files = c'.maxNeighborsUsed files
  | plugin c, plugin c' => c.fingerprint = c'.fingerprint → c.functions = c'.functions
  | _, _ => True

end Config

variable {files : Files} {c c' : Config}

theorem switchBytes_inj {v w : Double} (h : switchBytes v = switchBytes w) :
    Config.switch v = Config.switch w := by
  have hf : ∀ x : Double, f64 x ≠ [] := by
    intro x hx
    have hlen : (f64 x).length = 8 := Words.Word.length_bytes x
    simp [hx] at hlen
  unfold switchBytes at h
  unfold Config.switch
  split_ifs at h ⊢
  · exact Words.bytes_injective h
  · exact (hf v h).elim
  · exact (hf w h.symm).elim
  · rfl

/-- The class behind each potential type. -/
def Config.OfType (c : Config) : PotType → Prop
  | .LJ => ∃ a, c = .lj a
  | .LJCluster => ∃ a, c = .ljCluster a
  | .Morse => ∃ a, c = .morse a
  | .ZBL => ∃ a, c = .zbl a
  | .XTB => ∃ a, c = .xtb a
  | .TBLite => ∃ a, c = .tblite a
  | .D3 => ∃ a, c = .d3 a
  | .D4 => ∃ a, c = .d4 a
  | .Metatomic => ∃ a, c = .metatomic a
  | .MOPAC => ∃ a, c = .mopac a
  | .NWChem => ∃ a, c = .nwchem a
  | .CPMD => ∃ a, c = .cpmd a
  | .Skala => ∃ a, c = .skala a
  | .Uma => ∃ a, c = .uma a
  | .UNKNOWN => ∃ a, c = .plugin a
  | t => ∃ pot, c = .fortran pot ∧ (Config.fortran pot).type = t

theorem Config.ofType (c : Config) : c.OfType c.type := by
  cases c with
  | fortran pot => cases pot <;> exact ⟨_, rfl, rfl⟩
  | _ => exact ⟨_, rfl⟩

/-- No leaf class reports the type of a composite. -/
theorem Config.type_ne_expr (c : Config) : c.type ≠ .Expr := by
  cases c with
  | fortran pot => cases pot <;> decide
  | _ => simp [Config.type]

theorem Config.fingerprint_eq_salt {data : List UInt8} (h : c.fingerprint = some data) :
    ∃ rest, data = u64 c.salt ++ rest := by
  cases c with
  | plugin c =>
    obtain rfl := Option.some.inj h
    refine ⟨pluginSalt.bytes ++ (str c.name ++ (str c.version ++ (str c.config ++
      (str c.length_unit ++ (str c.energy_unit ++ []))))), ?_⟩
    rw [← List.append_assoc]
    rfl
  | lj | ljCluster | morse | zbl | cpmd | skala | uma => exact ⟨_, (Option.some.inj h).symm⟩
  | _ => cases h

theorem Config.salt_cases (c : Config) :
    c.salt = 1 ∨ (c.salt = 2 ∧ c.type = .Uma) ∨ (c.salt = 18 ∧ c.type = .UNKNOWN) := by
  cases c with
  | uma => exact Or.inr (Or.inl ⟨rfl, rfl⟩)
  | plugin => exact Or.inr (Or.inr ⟨rfl, rfl⟩)
  | _ => exact Or.inl rfl

theorem eq_fortran {pot : FortranPot} (h : c.type = (Config.fortran pot).type) :
    c = .fortran pot := by
  have hc := c.ofType
  rw [h] at hc
  cases pot <;> obtain ⟨q, rfl, hq⟩ := hc <;> cases q <;> first | rfl | cases hq

/-- Configurations of one potential type with one fingerprint compute the same function exactly
when they agree on what the fingerprint leaves out. -/
theorem effective_eq_iff (htype : c.type = c'.type) (hfp : c.fingerprint = c'.fingerprint) :
    c.effective files = c'.effective files ↔ c.LeftOutAgree files c' := by
  have hc := c.ofType
  rw [htype] at hc
  cases c' with
  | fortran q => simp [eq_fortran htype, Config.LeftOutAgree]
  | lj b =>
    obtain ⟨a, rfl⟩ := hc
    obtain ⟨_, _, _, _⟩ := a
    obtain ⟨_, _, _, _⟩ := b
    simp only [Config.fingerprint, LJConfig.fingerprint, Option.some.injEq, u64_append_inj,
      f64_append_inj] at hfp
    simp [Config.effective, Config.LeftOutAgree, hfp, switchBytes_inj hfp.2.2.2.2]
  | ljCluster b =>
    obtain ⟨a, rfl⟩ := hc
    obtain ⟨_, _, _, _⟩ := a
    obtain ⟨_, _, _, _⟩ := b
    simp only [Config.fingerprint, LJConfig.fingerprint, Option.some.injEq, u64_append_inj,
      f64_append_inj] at hfp
    simp [Config.effective, Config.LeftOutAgree, hfp, switchBytes_inj hfp.2.2.2.2]
  | morse b =>
    obtain ⟨a, rfl⟩ := hc
    obtain ⟨_, _, _, _, _⟩ := a
    obtain ⟨_, _, _, _, _⟩ := b
    simp only [Config.fingerprint, MorseConfig.fingerprint, Option.some.injEq, u64_append_inj,
      f64_append_inj] at hfp
    simp [Config.effective, Config.LeftOutAgree, hfp, switchBytes_inj hfp.2.2.2.2.2]
  | zbl b =>
    obtain ⟨a, rfl⟩ := hc
    obtain ⟨_, _⟩ := a
    obtain ⟨_, _⟩ := b
    simp only [Config.fingerprint, ZBLConfig.fingerprint, Option.some.injEq, u64_append_inj,
      f64_append_inj] at hfp
    simp [Config.effective, Config.LeftOutAgree, hfp]
  | cpmd b =>
    obtain ⟨a, rfl⟩ := hc
    simp only [Config.fingerprint, cpmdFingerprint, Option.some.injEq, u64_append_inj,
      str_append_inj] at hfp
    simp [Config.effective, Config.LeftOutAgree, hfp]
  | skala b =>
    obtain ⟨a, rfl⟩ := hc
    obtain ⟨_, _, _, _, _, _⟩ := a
    obtain ⟨_, _, _, _, _, _⟩ := b
    simp only [Config.fingerprint, SkalaConfig.fingerprint, Option.some.injEq, u64_append_inj,
      str_append_inj, i64_append_inj] at hfp
    simp [Config.effective, Config.LeftOutAgree, hfp]
  | plugin b =>
    obtain ⟨a, rfl⟩ := hc
    have hab : a.fingerprint = b.fingerprint := Option.some.inj hfp
    obtain ⟨_, _, _, _, _, _⟩ := a
    obtain ⟨_, _, _, _, _, _⟩ := b
    simp only [PluginConfig.fingerprint, str_append_inj] at hab
    simp [Config.effective, Config.LeftOutAgree, PluginConfig.fingerprint, hab]
  | uma b =>
    obtain ⟨a, rfl⟩ := hc
    have hab : a.fingerprint = b.fingerprint := Option.some.inj hfp
    obtain ⟨_, _, _, _, _, _, _⟩ := a
    obtain ⟨_, _, _, _, _, _, _⟩ := b
    simp only [UmaConfig.fingerprint, u64_append_inj, str_append_inj, i64_append_inj] at hab
    simp [Config.effective, UmaConfig.effective, Config.LeftOutAgree, UmaConfig.fingerprint, hab]
  | _ =>
    obtain ⟨a, rfl⟩ := hc
    simp [Config.effective, Config.LeftOutAgree]

end Rgpot.Cache
