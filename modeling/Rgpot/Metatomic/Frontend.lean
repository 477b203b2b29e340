import Rgpot.Lib.Fallible
import Rgpot.Metatomic.Engine

/-! The dlopen frontend: the flat configuration of the C ABI, the engine's entry points, and which
configurations they carry over. -/
namespace Rgpot.MetatomicEngine
open Metatomic Engines Component Fallible

/-- A string without the character that ends it. -/
def CString : Type := { s : String // '\x00' ∉ s.toList }

/-- The characters before the first zero. -/
def cut (s : String) : String := String.ofList (s.toList.takeWhile (· ≠ '\x00'))

theorem not_mem_cut (s : String) : '\x00' ∉ (cut s).toList := by
  intro h
  rw [cut, String.toList_ofList] at h
  have hkept := List.mem_takeWhile_imp h
  simp at hkept

/-- What is read behind `c_str()`. -/
def c_str (s : String) : CString := ⟨cut s, not_mem_cut s⟩

theorem cut_eq_self {s : String} : cut s = s ↔ '\x00' ∉ s.toList := by
  constructor
  · intro h
    rw [← h]
    exact not_mem_cut s
  · intro h
    have hall : s.toList.takeWhile (· ≠ '\x00') = s.toList := by
      rw [List.takeWhile_eq_self_iff]
      intro x hx
      simp only [ne_eq, decide_not, Bool.not_eq_eq_eq_not, Bool.not_true, decide_eq_false_iff_not]
      intro he
      exact h (he ▸ hx)
    rw [cut, hall, String.ofList_toList]

/-- `RgpotMtaConfig`; a null string is none. -/
structure RgpotMtaConfig (K : Type) where
  model_path : Option CString
  device : Option CString
  length_unit : Option CString
  extensions_directory : Option CString
  check_consistency : Int32
  uncertainty_threshold : K
  dtype_override : Option CString
  random_rotation : Int32
  n_symmetry_rotations : ℤ
  so3_probe_scatter : Int32
  torch_determinism_strict : Int32

def ofBool (b : Bool) : Int32 := if b then 1 else 0

/-- `flag != 0`. -/
def toBool (flag : Int32) : Bool := flag ≠ 0

theorem toBool_ofBool (b : Bool) : toBool (ofBool b) = b := by
  cases b with
  | false => rfl
  | true => rfl

variable {K : Type} [Field K]

def to_c_config (c : MetatomicConfig K) : RgpotMtaConfig K where
  model_path := some (c_str c.model_path)
  device := some (c_str c.device)
  length_unit := some (c_str c.length_unit)
  extensions_directory := some (c_str c.extensions_directory)
  check_consistency := ofBool c.check_consistency
  uncertainty_threshold := c.uncertainty_threshold
  dtype_override := some (c_str c.dtype_override)
  random_rotation := ofBool c.random_rotation
  n_symmetry_rotations := c.n_symmetry_rotations
  so3_probe_scatter := ofBool c.so3_probe_scatter
  torch_determinism_strict := ofBool (c.torch_determinism = .Strict)

def nz (s : Option CString) : String := s.elim "" Subtype.val

/-- The configuration `rgpot_mta_create` fills in. -/
def rebuilt (cfg : RgpotMtaConfig K) : MetatomicConfig K where
  model_path := nz cfg.model_path
  device := if nz cfg.device ≠ "" then nz cfg.device else "cpu"
  length_unit := if nz cfg.length_unit ≠ "" then nz cfg.length_unit else "angstrom"
  extensions_directory := nz cfg.extensions_directory
  check_consistency := toBool cfg.check_consistency
  uncertainty_threshold := cfg.uncertainty_threshold
  dtype_override := nz cfg.dtype_override
  random_rotation := toBool cfg.random_rotation
  n_symmetry_rotations := cfg.n_symmetry_rotations
  so3_probe_scatter := toBool cfg.so3_probe_scatter
  torch_determinism := if toBool cfg.torch_determinism_strict then .Strict else .Fast

/-- `set_err` on a buffer of 1024 characters. -/
def set_err (msg : String) : String := String.ofList (msg.toList.take 1023)

section Entry
variable [LinearOrder K] (lib : Libraries K)

def rgpot_mta_create (ctx : GlobalContext) (cfg : RgpotMtaConfig K) :
    Except String (MetatomicPot lib) × GlobalContext :=
  if nz cfg.model_path = "" then (.error (set_err "rgpot_mta_create: model_path required"), ctx)
  else
    match MetatomicPot.make lib ctx (rebuilt cfg) with
    | (.error e, ctx) => (.error (set_err e.what), ctx)
    | (.ok pot, ctx) => (.ok pot, ctx)

/-- The constructor of `MetatomicDlopen`, once the engine library is open. -/
def dlopenMake (ctx : GlobalContext) (c : MetatomicConfig K) :
    Except Exn (MetatomicPot lib) × GlobalContext :=
  match rgpot_mta_create lib ctx (to_c_config c) with
  | (.error err, ctx) => (.error (.runtimeError ("MetatomicDlopen: create failed: " ++ err)), ctx)
  | (.ok pot, ctx) => (.ok pot, ctx)

variable {lib} [OutwardRoot K]

/-- The return code, and the results where it is zero. -/
def rgpot_mta_force (pot : MetatomicPot lib) (ctx : GlobalContext) (input : Engines.ForceInput K)
    (s : CachedTypes) : (ℤ × Option (Results K input.nAtoms)) × CachedTypes :=
  if input.nAtoms = 0 then ((1, none), s)
  else
    match pot.forceImpl ctx input s with
    | (.ok results, s) => ((0, some results), s)
    | (.error _, s) => ((2, none), s)

/-- `MetatomicDlopen::forceImpl`. -/
def dlopenForce (pot : MetatomicPot lib) (ctx : GlobalContext) (input : Engines.ForceInput K)
    (s : CachedTypes) : Except Exn (Results K input.nAtoms) × CachedTypes :=
  match rgpot_mta_force pot ctx input s with
  | ((_, some results), s) => (.ok results, s)
  | ((rc, none), s) => (.error (.runtimeError ("MetatomicDlopen: force failed rc=" ++ toString rc)), s)

/-- A call reads the global flags of its time. -/
abbrev ForceCall (K : Type) := GlobalContext × Engines.ForceInput K

/-- The linked potential between calls. -/
def linked (pot : MetatomicPot lib) :
    Component CachedTypes (ForceCall K) (fun call => Results K call.2.nAtoms) TorchExn where
  fresh := .fresh
  call s call := pot.forceImpl call.1 call.2 s

/-- The frontend over the engine's potential between calls. -/
def frontend (pot : MetatomicPot lib) :
    Component CachedTypes (ForceCall K) (fun call => Results K call.2.nAtoms) Exn where
  fresh := .fresh
  call s call := dlopenForce pot call.1 call.2 s

variable (lib)

/-- Both constructors set the same flags, return for the same models, and give potentials with the same
energies, forces and variances in every run of calls with atoms. -/
structure Same (ctx : GlobalContext) (c : MetatomicConfig K) : Prop where
  flags : (dlopenMake lib ctx c).2 = (MetatomicPot.make lib ctx c).2
  made : (∃ q, (dlopenMake lib ctx c).1 = .ok q) ↔ ∃ p, (MetatomicPot.make lib ctx c).1 = .ok p
  answers : ∀ p q, (MetatomicPot.make lib ctx c).1 = .ok p → (dlopenMake lib ctx c).1 = .ok q →
    ∀ calls : List (ForceCall K), (∀ call ∈ calls, 0 < call.2.nAtoms) →
      (frontend q).answers .fresh calls = (linked p).answers .fresh calls

end Entry

section Carried

/-- The type chosen by an override that is cut. -/
def KeepsDtype (dtype_override : String) : Prop :=
  ∀ native, overrideDtype (cut dtype_override) native = overrideDtype dtype_override native

/-- A configuration that comes through: its strings have no zero character, device and unit are named,
and no extras are attached. -/
structure Carried (c : MetatomicConfig K) : Prop where
  model_path : c.model_path ≠ "" ∧ '\x00' ∉ c.model_path.toList
  device : c.device ≠ "" ∧ '\x00' ∉ c.device.toList
  length_unit : c.length_unit ≠ "" ∧ '\x00' ∉ c.length_unit.toList
  extensions_directory : '\x00' ∉ c.extensions_directory.toList
  dtype_override : KeepsDtype c.dtype_override
  attach_system_extras : c.attach_system_extras = false

/-- What arrives of a configuration. -/
theorem rebuilt_to_c_config (c : MetatomicConfig K) : rebuilt (to_c_config c) =
    { toMetatomicConfig := c.toMetatomicConfig
      model_path := cut c.model_path
      device := if cut c.device ≠ "" then cut c.device else "cpu"
      length_unit := if cut c.length_unit ≠ "" then cut c.length_unit else "angstrom"
      extensions_directory := cut c.extensions_directory
      check_consistency := c.check_consistency
      uncertainty_threshold := c.uncertainty_threshold
      dtype_override := cut c.dtype_override
      torch_determinism := c.torch_determinism } := by
  have hstrict : (if decide (c.torch_determinism = .Strict) then TorchDeterminismPolicy.Strict
      else .Fast) = c.torch_determinism := by
    cases c.torch_determinism with
    | Fast => rfl
    | Strict => rfl
  simp only [rebuilt, to_c_config, toBool_ofBool, hstrict]
  rfl

end Carried

section Alike
variable [LinearOrder K] {lib : Libraries K} {c c' : MetatomicConfig K}

/-- Configurations that the constructor and force calls cannot tell apart. -/
structure Alike (c c' : MetatomicConfig K) : Prop where
  rotations : c'.toMetatomicConfig = c.toMetatomicConfig
  model_path : c'.model_path = c.model_path
  extensions_directory : optional c'.extensions_directory = optional c.extensions_directory
  device : optional c'.device = optional c.device
  length_unit : c'.length_unit = c.length_unit
  check_consistency : c'.check_consistency = c.check_consistency
  uncertainty_threshold : c'.uncertainty_threshold = c.uncertainty_threshold
  dtype_override : ∀ native, overrideDtype c'.dtype_override native = overrideDtype c.dtype_override native
  torch_determinism : c'.torch_determinism = c.torch_determinism
  attach_system_extras : c.attach_system_extras = false ∧ c'.attach_system_extras = false

omit [Field K] [LinearOrder K] in
/-- An override matters only by the type it chooses. -/
theorem moveDtype_eq (dtype_override : String) (native : ScalarType) (model : lib.Module) :
    moveDtype lib dtype_override native model =
      if overrideDtype dtype_override native ≠ native then
        match move_atomistic_model (lib.toScalarType model (overrideDtype dtype_override native)) with
        | (model, none) => (model, overrideDtype dtype_override native)
        | (model, some _) => (model, native)
      else (model, overrideDtype dtype_override native) := by
  unfold moveDtype
  dsimp only
  by_cases hsame : overrideDtype dtype_override native = native
  · rw [if_neg (fun h => h.2 hsame), if_neg (not_not.mpr hsame)]
  · have hne : dtype_override ≠ "" := by
      rintro rfl
      exact hsame rfl
    exact (if_pos ⟨hne, hsame⟩).trans (if_pos hsame).symm

omit [LinearOrder K] in
theorem Alike.moveDtype (h : Alike c c') (native : ScalarType) (model : lib.Module) :
    moveDtype lib c'.dtype_override native model = moveDtype lib c.dtype_override native model := by
  rw [moveDtype_eq, moveDtype_eq, h.dtype_override]

/-- The constructors differ in the configuration they keep. -/
theorem Alike.load (h : Alike c c') (ctx : GlobalContext) : MetatomicPot.load lib ctx c' =
    (MetatomicPot.load lib ctx c).map fun pot => { pot with m_config := c' } := by
  unfold MetatomicPot.load
  simp only [h.model_path, h.extensions_directory, h.device, h.length_unit, h.check_consistency,
    h.uncertainty_threshold, h.moveDtype]
  cases lib.load_atomistic_model ctx c.model_path (optional c.extensions_directory) with
  | error e => rfl
  | ok model =>
  dsimp only [bind, Except.bind]
  cases lib.capabilities model with
  | error e => rfl
  | ok capabilities =>
  dsimp only
  cases lib.requested_neighbor_lists model with
  | error e => rfl
  | ok requests =>
  dsimp only
  cases lib.pick_device capabilities.supported_devices (optional c.device) with
  | error e => rfl
  | ok device =>
  dsimp only
  cases nativeDtype capabilities.dtype with
  | error e => rfl
  | ok native =>
  dsimp only
  rcases move_atomistic_model (lib.toDevice model device) with ⟨model, _ | e⟩
  swap
  · rfl
  dsimp only
  cases lib.pick_output "energy" capabilities.outputs with
  | error e => rfl
  | ok key =>
  dsimp only
  cases capabilities.outputs.lookup key with
  | none => rfl
  | some per_atom =>
  dsimp only
  cases lib.set_length_unit c.length_unit with
  | error e => rfl
  | ok _ => rfl

omit [LinearOrder K] in
theorem Alike.setup (h : Alike c c') {p : MetatomicPot lib} (hp : p.m_config = c) :
    ({ p with m_config := c' } : MetatomicPot lib).setup = p.setup := by
  have hattached : ({ p with m_config := c' } : MetatomicPot lib).attached = p.attached := by
    unfold MetatomicPot.attached
    rw [hp, h.attach_system_extras.1, if_neg Bool.false_ne_true]
    exact if_neg (by rw [h.attach_system_extras.2]; exact Bool.false_ne_true)
  simp only [MetatomicPot.setup, hattached, hp, h.rotations, h.length_unit]

/-- Every potential keeps the configuration it was made from. -/
theorem load_config {ctx : GlobalContext} {p : MetatomicPot lib} (h : MetatomicPot.load lib ctx c = .ok p) :
    p.m_config = c := by
  unfold MetatomicPot.load at h
  obtain ⟨model, -, h⟩ := bind_eq_ok.mp h
  obtain ⟨capabilities, -, h⟩ := bind_eq_ok.mp h
  obtain ⟨requests, -, h⟩ := bind_eq_ok.mp h
  obtain ⟨device, -, h⟩ := bind_eq_ok.mp h
  obtain ⟨native, -, h⟩ := bind_eq_ok.mp h
  generalize move_atomistic_model (lib.toDevice model device) = moved at h
  obtain ⟨model', failure⟩ := moved
  cases failure with
  | some e => cases h
  | none =>
  obtain ⟨model, -, h⟩ := bind_eq_ok.mp h
  obtain ⟨key, -, h⟩ := bind_eq_ok.mp h
  generalize List.lookup key capabilities.outputs = found at h
  cases found with
  | none => cases h
  | some per_atom =>
  obtain ⟨per_atom, -, h⟩ := bind_eq_ok.mp h
  obtain ⟨_, -, h⟩ := bind_eq_ok.mp h
  cases h
  rfl

variable [OutwardRoot K]

/-- A call with atoms returns through the C ABI what it returns directly. -/
theorem dlopenForce_eq (q : MetatomicPot lib) (ctx : GlobalContext) (input : Engines.ForceInput K)
    (hn : 0 < input.nAtoms) (s : CachedTypes) :
    (dlopenForce q ctx input s).2 = (q.forceImpl ctx input s).2 ∧
      (dlopenForce q ctx input s).1.toOption = (q.forceImpl ctx input s).1.toOption := by
  unfold dlopenForce rgpot_mta_force
  rw [if_neg hn.ne']
  rcases q.forceImpl ctx input s with ⟨e | results, s'⟩
  · exact ⟨rfl, rfl⟩
  · exact ⟨rfl, rfl⟩

/-- Potentials with the same setup answer every run of calls with atoms alike. -/
theorem answers_of_setup {p q : MetatomicPot lib} (h : q.setup = p.setup) {calls : List (ForceCall K)}
    (hcalls : ∀ call ∈ calls, 0 < call.2.nAtoms) (s : CachedTypes) :
    (frontend q).answers s calls = (linked p).answers s calls := by
  have hforce : ∀ (ctx : GlobalContext) (input : Engines.ForceInput K) s,
      q.forceImpl ctx input s = p.forceImpl ctx input s := by
    intro ctx input s
    simp only [MetatomicPot.forceImpl, h]
  refine answers_congr (Q := fun call => 0 < call.2.nAtoms) ?_ hcalls
  intro s call hn
  obtain ⟨hstate, hanswer⟩ := dlopenForce_eq q call.1 call.2 hn s
  rw [hforce] at hstate hanswer
  exact ⟨hstate, hanswer⟩

variable (lib) in
omit [OutwardRoot K] in
/-- The frontend's constructor is that of the rebuilt configuration, unless the path is refused. -/
theorem dlopenMake_eq (ctx : GlobalContext) (hpath : cut c.model_path ≠ "") :
    (dlopenMake lib ctx c).2 = (MetatomicPot.make lib ctx (rebuilt (to_c_config c))).2 ∧
    ∀ q, (dlopenMake lib ctx c).1 = .ok q ↔
      (MetatomicPot.make lib ctx (rebuilt (to_c_config c))).1 = .ok q := by
  have hgiven : ¬ nz (to_c_config c).model_path = "" := hpath
  unfold dlopenMake rgpot_mta_create
  rw [if_neg hgiven]
  rcases MetatomicPot.make lib ctx (rebuilt (to_c_config c)) with ⟨e | pot, ctx'⟩
  · refine ⟨rfl, fun q => iff_of_false ?_ ?_⟩
    · intro h
      cases h
    · intro h
      cases h
  · refine ⟨rfl, fun q => ?_⟩
    rw [Except.ok.injEq, Except.ok.injEq]

theorem Alike.same (h : Alike c (rebuilt (to_c_config c))) (hpath : cut c.model_path ≠ "")
    (ctx : GlobalContext) : Same lib ctx c := by
  obtain ⟨hflags, hmade⟩ := dlopenMake_eq lib ctx hpath
  have hload : ∀ ctx q, MetatomicPot.load lib ctx (rebuilt (to_c_config c)) = .ok q ↔
      ∃ p, MetatomicPot.load lib ctx c = .ok p ∧ { p with m_config := rebuilt (to_c_config c) } = q := by
    intro ctx q
    rw [h.load, map_eq_ok]
  have hctx : (MetatomicPot.make lib ctx (rebuilt (to_c_config c))).2 = (MetatomicPot.make lib ctx c).2 := by
    simp only [MetatomicPot.make, h.torch_determinism]
  have hfront : ∀ q, (dlopenMake lib ctx c).1 = .ok q ↔ ∃ p, (MetatomicPot.make lib ctx c).1 = .ok p ∧
      { p with m_config := rebuilt (to_c_config c) } = q := by
    intro q
    rw [hmade]
    simp only [MetatomicPot.make, h.torch_determinism]
    exact hload _ q
  constructor
  · rw [hflags, hctx]
  · constructor
    · rintro ⟨q, hq⟩
      obtain ⟨p, hp, -⟩ := (hfront q).mp hq
      exact ⟨p, hp⟩
    · rintro ⟨p, hp⟩
      exact ⟨_, (hfront _).mpr ⟨p, hp, rfl⟩⟩
  · intro p q hp hq calls hcalls
    obtain ⟨p', hp', rfl⟩ := (hfront q).mp hq
    obtain rfl := Except.ok.inj (hp.symm.trans hp')
    exact answers_of_setup (h.setup (load_config hp)) hcalls .fresh

end Alike

section Carried
variable [LinearOrder K] {c : MetatomicConfig K}

omit [LinearOrder K] in
theorem Carried.alike (h : Carried c) : Alike c (rebuilt (to_c_config c)) := by
  have hpath := cut_eq_self.mpr h.model_path.2
  have hdevice := cut_eq_self.mpr h.device.2
  have hunit := cut_eq_self.mpr h.length_unit.2
  have hextensions := cut_eq_self.mpr h.extensions_directory
  rw [rebuilt_to_c_config]
  simp only [hpath, hdevice, hunit, hextensions, if_pos h.device.1, if_pos h.length_unit.1]
  exact ⟨rfl, rfl, rfl, rfl, rfl, rfl, rfl, h.dtype_override, rfl, h.attach_system_extras, rfl⟩

/-- A configuration that comes through is evaluated the same, whatever the libraries do. -/
theorem Carried.same [OutwardRoot K] (h : Carried c) (lib : Libraries K) (ctx : GlobalContext) :
    Same lib ctx c := by
  refine h.alike.same ?_ ctx
  rw [cut_eq_self.mpr h.model_path.2]
  exact h.model_path.1

end Carried

section Probe
variable [LinearOrder K]

def refused : TorchExn := .c10 "refused"

/-- Libraries that take the paths, the device and the unit of one configuration, and a model of the type
`dtype` that answers only for some tensor types and system data. -/
def probe (c : MetatomicConfig K) (dtype : ScalarType) (accepts : ScalarType → List (SystemData K) → Bool) :
    Libraries K where
  Module := Unit
  Device := Unit
  Request := Unit
  load_atomistic_model _ path extensions :=
    if path = c.model_path ∧ extensions = optional c.extensions_directory then .ok () else .error refused
  capabilities _ := .ok ⟨[], if dtype = .kFloat64 then "float64" else "float32", [("energy", false)]⟩
  requested_neighbor_lists _ := .ok []
  pick_device _ desired := if desired = optional c.device then .ok () else .error refused
  toDevice _ _ := ((), none)
  toScalarType _ _ := ((), none)
  pick_output name _ := .ok name
  set_length_unit unit := if unit = c.length_unit then .ok () else .error refused
  random_so3 _ _ _ := fun _ _ => 0
  convert _ x := x
  norm _ _ := 0
  newSystem _ _ _ _ := .ok ()
  engine_cutoff _ _ := .ok 0
  full_list _ := false
  to_string _ := ""
  vesin_neighbors _ _ _ _ _ _ := .ok []
  register_autograd_neighbors _ _ _ _ := .ok ()
  add_neighbor_list _ _ _ _ := .ok ()
  forward _ _ _ used _ system _ _ :=
    if accepts used system.data then .ok ⟨fun _ => false, fun _ => .ok [], fun _ => .ok fun _ _ => 0⟩
    else .error refused

variable {c c' : MetatomicConfig K} {dtype : ScalarType} {accepts : ScalarType → List (SystemData K) → Bool}

theorem nativeDtype_probe (dtype : ScalarType) :
    nativeDtype (if dtype = .kFloat64 then "float64" else "float32") = .ok dtype := by
  cases dtype with
  | kFloat32 => rfl
  | kFloat64 => rfl

omit [LinearOrder K] in
theorem moveDtype_probe (dtype_override : String) (native : ScalarType)
    (model : (probe c dtype accepts).Module) :
    moveDtype (probe c dtype accepts) dtype_override native model =
      (model, overrideDtype dtype_override native) := by
  rw [moveDtype_eq]
  split
  · rfl
  · rfl

theorem of_ite_eq_ok {α : Type} {P : Prop} [Decidable P] {a b : α}
    (h : (if P then Except.ok a else .error refused) = .ok b) : P := by
  by_contra hP
  rw [if_neg hP] at h
  cases h

/-- The constructor returns for what the libraries take only. -/
theorem probe_load {ctx : GlobalContext} {p : MetatomicPot (probe c dtype accepts)}
    (h : MetatomicPot.load (probe c dtype accepts) ctx c' = .ok p) :
    (c'.model_path = c.model_path ∧
      optional c'.extensions_directory = optional c.extensions_directory ∧
      optional c'.device = optional c.device ∧ c'.length_unit = c.length_unit) ∧
    p.m_nl_requests = [] ∧ p.m_dtype = overrideDtype c'.dtype_override dtype := by
  unfold MetatomicPot.load at h
  obtain ⟨model, hload, h⟩ := bind_eq_ok.mp h
  obtain ⟨capabilities, hcapabilities, h⟩ := bind_eq_ok.mp h
  obtain rfl := Except.ok.inj hcapabilities
  obtain ⟨requests, hrequests, h⟩ := bind_eq_ok.mp h
  obtain rfl := Except.ok.inj hrequests
  obtain ⟨device, hdevice, h⟩ := bind_eq_ok.mp h
  obtain ⟨native, hnative, h⟩ := bind_eq_ok.mp h
  obtain rfl := Except.ok.inj ((nativeDtype_probe dtype).symm.trans hnative)
  obtain ⟨model', -, h⟩ := bind_eq_ok.mp h
  beta_reduce at h
  rw [moveDtype_probe] at h
  obtain ⟨key, hkey, h⟩ := bind_eq_ok.mp h
  obtain rfl := Except.ok.inj hkey
  obtain ⟨per_atom, -, h⟩ := bind_eq_ok.mp h
  obtain ⟨_, hunit, h⟩ := bind_eq_ok.mp h
  cases h
  obtain ⟨hpath, hextensions⟩ := of_ite_eq_ok hload
  exact ⟨⟨hpath, hextensions, of_ite_eq_ok hdevice, of_ite_eq_ok hunit⟩, rfl, rfl⟩

theorem exists_bind {α β : Type} {x : Except TorchExn α} {f : α → Except TorchExn β} {a : α}
    (hx : x = .ok a) (h : ∃ b, f a = .ok b) : ∃ b, (x >>= f) = .ok b := by
  obtain ⟨b, hb⟩ := h
  exact ⟨b, bind_eq_ok.mpr ⟨a, hx, hb⟩⟩

variable (c dtype accepts) in
/-- The constructor returns for the configuration itself. -/
theorem probe_load_self (ctx : GlobalContext) :
    ∃ p, MetatomicPot.load (probe c dtype accepts) ctx c = .ok p := by
  unfold MetatomicPot.load
  refine exists_bind (if_pos ⟨rfl, rfl⟩) ?_
  refine exists_bind rfl ?_
  refine exists_bind rfl ?_
  refine exists_bind (if_pos rfl) ?_
  refine exists_bind (nativeDtype_probe dtype) ?_
  refine exists_bind rfl ?_
  dsimp only
  refine exists_bind rfl ?_
  refine exists_bind rfl ?_
  exact exists_bind (if_pos rfl) ⟨_, rfl⟩

variable [OutwardRoot K]

theorem n_passes_pos (c : Metatomic.MetatomicConfig) : 0 < c.n_passes := by
  have hrotations : 0 < c.n_rot_passes := by
    unfold Metatomic.MetatomicConfig.n_rot_passes
    split
    · exact List.length_pos_iff.mpr ‹_›
    · split
      · omega
      · exact Nat.one_pos
  unfold Metatomic.MetatomicConfig.n_passes
  split
  · exact Nat.succ_pos _
  · exact hrotations

/-- A force call returns exactly when the model takes the type and the data. -/
theorem probe_force {p : MetatomicPot (probe c dtype accepts)} (hp : p.m_nl_requests = [])
    (ctx : GlobalContext) (input : Engines.ForceInput K) (s : CachedTypes) :
    (∃ r, (p.forceImpl ctx input s).1 = .ok r) ↔ accepts p.m_dtype p.attached = true := by
  have hpass : ∀ types pos box sums i_pass,
      (∃ t, p.setup.pass (n := input.nAtoms) ctx types pos box sums i_pass = .ok t) ↔
        accepts p.m_dtype p.attached = true := by
    intro types pos box sums i_pass
    have hsystem : ∀ pos cell, p.setup.newSystem (n := input.nAtoms) types pos cell = .ok
        ⟨types, pos, cell, fun _ => decide ((0.000000001 : K) < |0|), p.attached, []⟩ := by
      intro pos cell
      simp only [PassSetup.newSystem, MetatomicPot.setup, hp]
      rfl
    unfold PassSetup.pass
    constructor
    · rintro ⟨t, ht⟩
      obtain ⟨system, hnew, ht⟩ := bind_eq_ok.mp ht
      obtain rfl := Except.ok.inj ((hsystem _ _).symm.trans hnew)
      obtain ⟨output, houtput, -⟩ := bind_eq_ok.mp ht
      exact of_ite_eq_ok houtput
    · intro h
      refine exists_bind (hsystem _ _) ?_
      refine exists_bind (if_pos h) ?_
      refine exists_bind rfl ?_
      refine exists_bind rfl ?_
      dsimp only
      generalize p.setup.rotations.identity_pass i_pass = identity
      cases identity with
      | true => exact ⟨_, rfl⟩
      | false =>
        simp only [Bool.false_eq_true, if_false]
        split
        · exact ⟨_, rfl⟩
        · exact ⟨_, rfl⟩
  have hpasses : List.range p.setup.rotations.n_passes ≠ [] := by
    rw [ne_eq, List.range_eq_nil]
    exact (n_passes_pos _).ne'
  simp only [MetatomicPot.forceImpl, PassSetup.forceImpl, map_eq_ok]
  rw [← exists_foldlM_eq_ok (hpass _ _ _) hpasses]
  constructor
  · rintro ⟨r, sums, hsums, -⟩
    exact ⟨sums, hsums⟩
  · rintro ⟨sums, hsums⟩
    exact ⟨_, sums, hsums, rfl⟩

variable {lib : Libraries K}

omit [OutwardRoot K] in
/-- An engine is created under a path that is not empty only. -/
theorem cut_of_dlopenMake {ctx : GlobalContext} {q : MetatomicPot lib}
    (h : (dlopenMake lib ctx c).1 = .ok q) : cut c.model_path ≠ "" := by
  intro hpath
  have hrefused : nz (to_c_config c).model_path = "" := hpath
  unfold dlopenMake rgpot_mta_create at h
  rw [if_pos hrefused] at h
  cases h

/-- Where a string is read as the default for an empty one, it was not cut and not empty. -/
theorem kept_of_default {s default : String} (hdefault : '\x00' ∉ default.toList)
    (h : (if cut s ≠ "" then cut s else default) = s) (hne : default ≠ "") :
    s ≠ "" ∧ '\x00' ∉ s.toList := by
  by_cases hcut : cut s = ""
  · rw [if_neg (not_not.mpr hcut)] at h
    rw [← h, cut_eq_self.mpr hdefault] at hcut
    exact absurd hcut hne
  · rw [if_pos hcut] at h
    refine ⟨?_, cut_eq_self.mp h⟩
    rintro rfl
    exact hcut h

theorem optional_inj {s t : String} (h : optional s = optional t) : s = t := by
  unfold optional at h
  by_cases hs : s = ""
  · by_cases ht : t = ""
    · exact hs.trans ht.symm
    · rw [if_pos hs, if_neg ht] at h
      cases h
  · by_cases ht : t = ""
    · rw [if_neg hs, if_pos ht] at h
      cases h
    · rw [if_neg hs, if_neg ht] at h
      exact Option.some.inj h

/-- Where both constructors give potentials over the probe. -/
theorem Same.loaded {ctx : GlobalContext} (h : Same (probe c dtype accepts) ctx c) :
    ∃ p q, (MetatomicPot.make (probe c dtype accepts) ctx c).1 = .ok p ∧
      (dlopenMake (probe c dtype accepts) ctx c).1 = .ok q ∧ cut c.model_path ≠ "" ∧
      (∃ ctx, MetatomicPot.load (probe c dtype accepts) ctx c = .ok p) ∧
      ∃ ctx, MetatomicPot.load (probe c dtype accepts) ctx (rebuilt (to_c_config c)) = .ok q := by
  obtain ⟨p, hp⟩ := probe_load_self c dtype accepts
    (apply_torch_determinism_policy c.torch_determinism { ctx with profilingMode := false })
  obtain ⟨q, hq⟩ := h.made.mpr ⟨p, hp⟩
  have hpath := cut_of_dlopenMake hq
  exact ⟨p, q, hp, hq, hpath, ⟨_, hp⟩, _, ((dlopenMake_eq _ ctx hpath).2 q).mp hq⟩

/-- The strings of a configuration that is evaluated the same over the probe. -/
theorem Same.strings {ctx : GlobalContext} (h : Same (probe c dtype accepts) ctx c) :
    (c.model_path ≠ "" ∧ '\x00' ∉ c.model_path.toList) ∧ (c.device ≠ "" ∧ '\x00' ∉ c.device.toList) ∧
      (c.length_unit ≠ "" ∧ '\x00' ∉ c.length_unit.toList) ∧
      '\x00' ∉ c.extensions_directory.toList := by
  obtain ⟨p, q, -, -, hne, -, _, hq⟩ := h.loaded
  obtain ⟨⟨hpath, hextensions, hdevice, hunit⟩, -, -⟩ := probe_load hq
  rw [rebuilt_to_c_config] at hpath hextensions hdevice hunit
  dsimp only at hpath hextensions hdevice hunit
  refine ⟨⟨?_, cut_eq_self.mp hpath⟩, ?_, ?_, cut_eq_self.mp (optional_inj hextensions)⟩
  · rw [← hpath]
    exact hne
  · exact kept_of_default (by decide) (optional_inj hdevice) (by decide)
  · exact kept_of_default (by decide) hunit (by decide)

/-- A call with one atom. -/
def oneAtom (K : Type) [Field K] : Engines.ForceInput K := ⟨1, fun _ => 0, fun _ => 1, fun _ => 0⟩

theorem isOk_of_toOption {α ε ε' : Type} {x : Except ε α} {y : Except ε' α}
    (h : x.toOption = y.toOption) : (∃ r, x = .ok r) ↔ ∃ r, y = .ok r := by
  cases x with
  | error e =>
    cases y with
    | error e' => exact iff_of_false (fun ⟨_, h⟩ => nomatch h) fun ⟨_, h⟩ => nomatch h
    | ok b => cases h
  | ok a =>
    cases y with
    | error e' => cases h
    | ok b => exact iff_of_true ⟨a, rfl⟩ ⟨b, rfl⟩

/-- Over the probe, the model takes the types and data of both potentials or of none. -/
theorem Same.accepted {ctx : GlobalContext} (h : Same (probe c dtype accepts) ctx c) :
    ∃ p : MetatomicPot (probe c dtype accepts), p.m_config = c ∧
      (accepts (overrideDtype (cut c.dtype_override) dtype) [] = true ↔
        accepts (overrideDtype c.dtype_override dtype) p.attached = true) := by
  obtain ⟨p, q, hp, hq, -, ⟨_, hpload⟩, _, hqload⟩ := h.loaded
  obtain ⟨-, hprequests, hptype⟩ := probe_load hpload
  obtain ⟨-, hqrequests, hqtype⟩ := probe_load hqload
  have hdata : q.attached = [] := by
    unfold MetatomicPot.attached
    rw [load_config hqload, rebuilt_to_c_config]
    exact if_neg Bool.false_ne_true
  have hanswers := h.answers p q hp hq [(ctx, oneAtom K)] (by simp [oneAtom])
  have hanswer := (Sigma.mk.inj (List.cons.inj hanswers).1).2
  obtain ⟨-, hforce⟩ := dlopenForce_eq q ctx (oneAtom K) Nat.one_pos .fresh
  have hboth : (∃ r, (q.forceImpl ctx (oneAtom K) .fresh).1 = .ok r) ↔
      ∃ r, (p.forceImpl ctx (oneAtom K) .fresh).1 = .ok r :=
    isOk_of_toOption (hforce.symm.trans (eq_of_heq hanswer))
  rw [probe_force hqrequests, probe_force hprequests, hdata, hqtype, hptype] at hboth
  rw [rebuilt_to_c_config] at hboth
  exact ⟨p, load_config hpload, hboth⟩

omit [LinearOrder K] [OutwardRoot K] in
/-- The model gets no data of its own exactly when none is attached. -/
theorem attached_eq_nil {p : MetatomicPot lib} : p.attached = [] ↔ p.m_config.attach_system_extras = false := by
  unfold MetatomicPot.attached
  cases p.m_config.attach_system_extras with
  | false => exact iff_of_true rfl rfl
  | true => exact iff_of_false (List.cons_ne_nil _ _) Bool.noConfusion

/-- What is evaluated the same over every library comes through. -/
theorem carried_of_same {c : MetatomicConfig K}
    (h : ∀ (lib : Libraries K) (ctx : GlobalContext), Same lib ctx c) (ctx : GlobalContext) : Carried c := by
  obtain ⟨hpath, hdevice, hunit, hextensions⟩ :=
    (h (probe c .kFloat64 fun _ _ => true) ctx).strings
  refine ⟨hpath, hdevice, hunit, hextensions, ?_, ?_⟩
  · -- a model that takes the type of the linked potential only
    intro native
    obtain ⟨p, -, htakes⟩ :=
      (h (probe c native fun t _ => decide (t = overrideDtype c.dtype_override native)) ctx).accepted
    exact of_decide_eq_true (htakes.mpr (decide_eq_true rfl))
  · -- a model that takes a system with data only
    obtain ⟨p, hp, htakes⟩ := (h (probe c .kFloat64 fun _ data => !data.isEmpty) ctx).accepted
    rw [← hp, ← attached_eq_nil]
    by_contra hdata
    have hnone := htakes.mpr (by rw [Bool.not_eq_true', List.isEmpty_eq_false_iff]; exact hdata)
    cases hnone

end Probe

section Frontend
variable [LinearOrder K] [OutwardRoot K]

def quiet : GlobalContext :=
  ⟨false, false, false, false, false, false, false, false, false, false, false, false⟩

/-- The frontend evaluates a configuration as the linked potential does, whatever the libraries do,
exactly when the configuration comes through the C ABI. -/
theorem frontend_same_iff (c : MetatomicConfig K) :
    (∀ (lib : Libraries K) (ctx : GlobalContext), Same lib ctx c) ↔ Carried c := by
  constructor
  · intro h
    exact carried_of_same h quiet
  · intro h lib ctx
    exact h.same lib ctx

/-- A model conditioned on a charge of one and a multiplicity of two. -/
def charged : MetatomicConfig ℚ where
  model_path := "model.pt"
  device := "cpu"
  charge := 1
  spin := 2
  attach_system_extras := true

/-- The charge and the multiplicity are lost. -/
theorem not_frontend_same : ¬ ∀ c : MetatomicConfig ℚ, c.model_path ≠ "" →
    ∀ (lib : Libraries ℚ) (ctx : GlobalContext), Same lib ctx c := by
  intro h
  have hcarried := carried_of_same (h charged (by decide)) quiet
  exact Bool.noConfusion hcarried.attach_system_extras

end Frontend

end Rgpot.MetatomicEngine
