import Rgpot.Rpc.Doubles
import Rgpot.Cache.ParamHash
import Mathlib.Analysis.Calculus.Deriv.Mul
import Mathlib.Analysis.Calculus.Deriv.Comp

/-! `PluginPot`: a plugin's native units behind the interface in Angstrom and eV. -/
namespace Rgpot.Plugin
open Rgpot.Units Rgpot.Cache Filter Topology

/-- `std::isfinite`. -/
class FiniteTest (K : Type) where
  isfinite : K → Bool

instance : FiniteTest ℝ := ⟨fun _ => true⟩
instance : FiniteTest Binary64 := ⟨BinaryFloat.isFinite⟩

export FiniteTest (isfinite)

/-- The caller's buffers; `none` is a null pointer. -/
structure ForceInput (K : Type) where
  nAtoms : ℕ
  pos : Option (Fin (3 * nAtoms) → K)
  atmnrs : Option (Fin nAtoms → Int32)
  box : Option (Fin 9 → K)

structure ForceOut (K : Type) (n : ℕ) where
  F : Option (Fin (3 * n) → K)
  energy : K
  variance : K
  stress : Fin 9 → K
  has_stress : Int32

/-- `rgpot_plugin_input_t`. -/
structure Request (K : Type) (n : ℕ) where
  positions : Fin (3 * n) → K
  atomic_numbers : Option (Fin n → Int32)
  cell : Fin 9 → K

/-- `rgpot_plugin_output_t` after the call; what a plugin leaves alone is a NaN, or a zero
variance. -/
structure Response (K : Type) (n : ℕ) where
  energy : K
  variance : K
  forces : Fin (3 * n) → K

/-- A status of any value; a plugin written in C++ may also throw. -/
abbrev Status := Int32

def RGPOT_PLUGIN_OK : Status := 0

def RGPOT_PLUGIN_API_VERSION : UInt32 := 1

def RGPOT_CAP_ENERGY : UInt32 := (1 : UInt32) <<< 0
def RGPOT_CAP_FORCES : UInt32 := (1 : UInt32) <<< 1

/-- `rgpot_plugin_descriptor_t`; `I` is the plugin's instance. -/
structure Descriptor (K I : Type) where
  descriptor_size : ℕ
  api_version : UInt32
  name : Option Text
  version : Option Text
  length_unit : Option Text
  energy_unit : Option Text
  create : Option (Text → Except Exn (Status × Option I))
  destroy : Option (I → Unit)
  calculate : Option ({n : ℕ} → Request K n → I → Except Exn (Status × Response K n) × I)
  capabilities : Option (I → UInt32)
  last_error : Option (I → Option Text)

variable {K I : Type}

/-- A descriptor whose required fields are there. -/
structure CheckedDescriptor (K I : Type) where
  name : Text
  version : Option Text
  length_unit : Option Text
  energy_unit : Option Text
  create : Text → Except Exn (Status × Option I)
  calculate : {n : ℕ} → Request K n → I → Except Exn (Status × Response K n) × I
  capabilities : Option (I → UInt32)
  last_error : Option (I → Option Text)

/-- `offsetof(rgpot_plugin_descriptor_t, capabilities)` with 64-bit pointers. -/
def offsetCapabilities : ℕ := 72

/-- `offsetof(rgpot_plugin_descriptor_t, last_error)`. -/
def offsetLastError : ℕ := 80

/-- Fields past the size a plugin was built with are not read. -/
def checkedDescriptor (source : Option (Descriptor K I)) : Except Exn (CheckedDescriptor K I) :=
  match source with
  | none => .error (.invalidArgument "plugin descriptor is missing required fields")
  | some source =>
    if source.descriptor_size < offsetCapabilities then
      .error (.invalidArgument "plugin descriptor is missing required fields")
    else if source.api_version ≠ RGPOT_PLUGIN_API_VERSION then
      .error (.invalidArgument "plugin API version mismatch")
    else
      match source.name, source.create, source.destroy, source.calculate with
      | some (c :: name), some create, some _, some calculate =>
        .ok
          { name := c :: name
            version := source.version
            length_unit := source.length_unit
            energy_unit := source.energy_unit
            create := create
            calculate := calculate
            capabilities :=
              if offsetCapabilities + 8 ≤ source.descriptor_size then source.capabilities else none
            last_error :=
              if offsetLastError + 8 ≤ source.descriptor_size then source.last_error else none }
      | _, _, _, _ => .error (.invalidArgument "plugin descriptor has invalid required fields")

def pluginError (descriptor : CheckedDescriptor K I) (state : Option I) (fallback : String) :
    String :=
  match descriptor.last_error, state with
  | some last_error, some state =>
    match last_error state with
    | some (c :: message) => String.ofList (c :: message)
    | _ => fallback
  | _, _ => fallback

/-- A unit the plugin names, or the native one. -/
def unitOr (unit : Option Text) (native : String) : Text :=
  match unit with
  | some (c :: unit) => c :: unit
  | _ => native.toList

structure PluginPot (K I : Type) where
  m_descriptor : CheckedDescriptor K I
  m_length : K
  m_energy : K
  m_force : K
  m_capabilities : UInt32
  m_key : UInt64

/-- `Fnv1a::str`. -/
def hashed (s : Text) : List UInt8 :=
  Fnv1a.u64 (UInt64.ofNat s.length) ++ s.map fun c => UInt8.ofNat c.toNat

/-- `create_from_plugin`: the potential and the instance it owns. -/
def create_from_plugin [Add K] [Sub K] [MulOneClass K] [Div K] [Zero K] [LE K] [DecidableLE K]
    [Number K] [FiniteTest K] (source : Option (Descriptor K I)) (config : Text) :
    Except Exn (PluginPot K I × I) := do
  let descriptor ← checkedDescriptor source
  let length_unit := unitOr descriptor.length_unit "angstrom"
  let energy_unit := unitOr descriptor.energy_unit "eV"
  let length ← unit_conversion_factor "angstrom".toList length_unit
  let energy ← unit_conversion_factor energy_unit "eV".toList
  if !isfinite length || !isfinite energy || decide (length ≤ 0) || decide (energy ≤ 0) ||
      !isfinite (length * energy) || !isfinite (energy * energy) then
    throw (.invalidArgument "invalid plugin unit conversion")
  else
    let (status, raw) ← descriptor.create config
    match raw with
    | none => throw (.runtimeError (pluginError descriptor raw "plugin create failed"))
    | some state =>
      let capabilities := (descriptor.capabilities.map fun caps => caps state).getD
        (RGPOT_CAP_ENERGY ||| RGPOT_CAP_FORCES)
      let key := hashed "rgpot-plugin-abi-1".toList ++ hashed descriptor.name ++
        hashed (descriptor.version.getD []) ++ hashed config ++ hashed length_unit ++
        hashed energy_unit
      if status ≠ RGPOT_PLUGIN_OK then
        throw (.runtimeError (pluginError descriptor raw "plugin create failed"))
      else if capabilities &&& (RGPOT_CAP_ENERGY ||| RGPOT_CAP_FORCES) ≠
          RGPOT_CAP_ENERGY ||| RGPOT_CAP_FORCES then
        throw (.invalidArgument "plugin must provide both energy and forces")
      else return (
        { m_descriptor := descriptor
          m_length := length
          m_energy := energy
          m_force := energy * length
          m_capabilities := capabilities
          m_key := Fnv1a.h key }, state)

/-- What a force call works on: the plugin's instance, the calls it has received, and the caller's
result slot. -/
structure Session (K I : Type) (n : ℕ) where
  state : I
  calls : List (Request K n)
  output : Option (ForceOut K n)

/-- `std::numeric_limits<size_t>::max()`. -/
def sizeMax : ℕ := 2 ^ 64 - 1

def invalidBuffers (input : ForceInput K) (output : Option (ForceOut K input.nAtoms)) : Bool :=
  match output with
  | none => true
  | some output => input.box.isNone || decide (input.nAtoms > sizeMax / 3) ||
    (decide (input.nAtoms ≠ 0) &&
      (input.pos.isNone || input.atmnrs.isNone || output.F.isNone))

section Evaluation
variable [Zero K]

/-- Positions and cell times a factor. -/
def scaled [Mul K] (factor : K) (input : ForceInput K) : Request K input.nAtoms where
  positions i := (input.pos.elim 0 fun pos => pos i) * factor
  atomic_numbers := input.atmnrs
  cell i := (input.box.elim 0 fun box => box i) * factor

/-- The writes at the end of a force call. -/
def written {n : ℕ} (energy variance : K) (forces : Fin (3 * n) → K) (output : ForceOut K n) :
    ForceOut K n :=
  { output with
    energy := energy
    variance := variance
    has_stress := 0
    stress := fun _ => 0
    F := output.F.map fun _ => forces }

/-- `PluginPot::forceImpl`. -/
def PluginPot.forceImpl [Mul K] [LT K] [DecidableLT K] [FiniteTest K] (pot : PluginPot K I)
    (input : ForceInput K) (s : Session K I input.nAtoms) :
    Except Exn Unit × Session K I input.nAtoms :=
  if invalidBuffers input s.output then
    (.error (.invalidArgument "invalid plugin force buffers"), s)
  else
    let request := scaled pot.m_length input
    let (reply, state) := pot.m_descriptor.calculate request s.state
    let s := { s with state := state, calls := s.calls ++ [request] }
    match reply with
    | .error e => (.error e, s)
    | .ok (status, response) =>
      if status ≠ RGPOT_PLUGIN_OK then
        (.error (.runtimeError (pluginError pot.m_descriptor (some state)
          "plugin calculate failed")), s)
      else
        let energy := response.energy * pot.m_energy
        let variance := response.variance * pot.m_energy * pot.m_energy
        if !isfinite energy || !isfinite variance || decide (variance < 0) then
          (.error (.runtimeError "plugin returned invalid energy or variance"), s)
        else
          let forces := fun i => response.forces i * pot.m_force
          if ∀ i, isfinite (forces i) = true then
            (.ok (), { s with output := s.output.map (written energy variance forces) })
          else (.error (.runtimeError "plugin returned invalid forces"), s)

/-- The result slot after a reply in plugin units was converted and every number tested. -/
structure Delivered [Mul K] [LT K] [FiniteTest K] {n : ℕ} (l e : K) (response : Response K n)
    (before after : ForceOut K n) : Prop where
  energy : after.energy = response.energy * e
  variance : after.variance = response.variance * e * e
  F : after.F = before.F.map fun _ i => response.forces i * (e * l)
  has_stress : after.has_stress = 0
  stress : after.stress = fun _ => 0
  finite_energy : isfinite after.energy = true
  finite_variance : isfinite after.variance = true
  finite_F : ∀ i, isfinite (response.forces i * (e * l)) = true
  variance_not_neg : ¬ after.variance < 0

/-- One force call: the plugin sees positions and cell times `l`, and the caller's slot stays as it
was or receives the converted reply. -/
def Atomic [Mul K] [LT K] [DecidableLT K] [FiniteTest K] (pot : PluginPot K I) (l e : K)
    (input : ForceInput K) (s : Session K I input.nAtoms) : Prop :=
  (pot.forceImpl input s).2.calls =
      (if invalidBuffers input s.output then s.calls else s.calls ++ [scaled l input]) ∧
    ((∃ what, (pot.forceImpl input s).1 = .error what) ∧
        (pot.forceImpl input s).2.output = s.output ∨
      (pot.forceImpl input s).1 = .ok () ∧ ∃ response before after,
        (pot.m_descriptor.calculate (scaled l input) s.state).1 = .ok (RGPOT_PLUGIN_OK, response) ∧
        s.output = some before ∧ (pot.forceImpl input s).2.output = some after ∧
        Delivered l e response before after)

/-- Every test comes before the first write. -/
theorem PluginPot.atomic [Mul K] [LT K] [DecidableLT K] [FiniteTest K] (pot : PluginPot K I)
    (hforce : pot.m_force = pot.m_energy * pot.m_length) (input : ForceInput K)
    (s : Session K I input.nAtoms) : Atomic pot pot.m_length pot.m_energy input s := by
  by_cases hbuffers : invalidBuffers input s.output = true
  · have hcall : pot.forceImpl input s =
        (.error (.invalidArgument "invalid plugin force buffers"), s) := by
      rw [PluginPot.forceImpl, if_pos hbuffers]
    rw [Atomic, hcall, if_pos hbuffers]
    exact ⟨rfl, Or.inl ⟨⟨_, rfl⟩, rfl⟩⟩
  · obtain ⟨before, hbefore⟩ : ∃ before, s.output = some before := by
      cases hout : s.output with
      | none => simp [invalidBuffers, hout] at hbuffers
      | some before => exact ⟨before, rfl⟩
    unfold Atomic PluginPot.forceImpl
    simp only [hbuffers, Bool.false_eq_true, if_false]
    cases hreply : (pot.m_descriptor.calculate (scaled pot.m_length input) s.state).1 with
    | error e => exact ⟨rfl, Or.inl ⟨⟨_, rfl⟩, rfl⟩⟩
    | ok reply =>
      obtain ⟨status, response⟩ := reply
      by_cases hstatus : status = RGPOT_PLUGIN_OK
      · subst hstatus
        simp only [ne_eq, not_true_eq_false, if_false]
        split
        · exact ⟨rfl, Or.inl ⟨⟨_, rfl⟩, rfl⟩⟩
        · next htest =>
          simp only [Bool.or_eq_true, Bool.not_eq_true', decide_eq_true_eq, not_or,
            Bool.not_eq_false] at htest
          split
          · next hforces =>
            refine ⟨rfl, Or.inr ⟨rfl, response, before, written (response.energy * pot.m_energy)
              (response.variance * pot.m_energy * pot.m_energy)
              (fun i => response.forces i * pot.m_force) before, rfl, hbefore, ?_, ?_⟩⟩
            · rw [hbefore]
              rfl
            · rw [hforce] at hforces ⊢
              exact ⟨rfl, rfl, rfl, rfl, rfl, htest.1.1, htest.1.2, hforces, htest.2⟩
          · exact ⟨rfl, Or.inl ⟨⟨_, rfl⟩, rfl⟩⟩
      · simp only [ne_eq, hstatus, not_false_eq_true, if_true]
        exact ⟨trivial, Or.inl ⟨⟨_, rfl⟩, trivial⟩⟩

end Evaluation

section Creation

/-- The two factors a plugin's unit strings give. -/
def Factors [Add K] [Sub K] [MulOneClass K] [Div K] [Zero K] [Number K]
    (source : Option (Descriptor K I)) (l e : K) : Prop :=
  ∃ descriptor, checkedDescriptor source = .ok descriptor ∧
    unit_conversion_factor "angstrom".toList (unitOr descriptor.length_unit "angstrom") = .ok l ∧
    unit_conversion_factor (unitOr descriptor.energy_unit "eV") "eV".toList = .ok e

/-- A potential keeps its plugin's functions, the positive factors of its unit strings, and their
product for forces. -/
theorem create_from_plugin_factors [Add K] [Sub K] [MulOneClass K] [Div K] [Zero K] [LE K]
    [DecidableLE K] [Number K] [FiniteTest K] {source : Option (Descriptor K I)} {config : Text}
    {pot : PluginPot K I} {state : I} (h : create_from_plugin source config = .ok (pot, state)) :
    Factors source pot.m_length pot.m_energy ∧ pot.m_force = pot.m_energy * pot.m_length ∧
      ¬ pot.m_energy ≤ 0 ∧ checkedDescriptor source = .ok pot.m_descriptor := by
  obtain ⟨descriptor, hdescriptor, h⟩ := Fallible.bind_eq_ok.mp h
  obtain ⟨l, hl, h⟩ := Fallible.bind_eq_ok.mp h
  obtain ⟨e, he, h⟩ := Fallible.bind_eq_ok.mp h
  split at h
  · cases h
  · next htest =>
    simp only [Bool.or_eq_true, decide_eq_true_eq, not_or] at htest
    obtain ⟨⟨status, raw⟩, -, h⟩ := Fallible.bind_eq_ok.mp h
    cases raw with
    | none => cases h
    | some state =>
      simp only at h
      split at h
      · cases h
      · split at h
        · cases h
        · cases h
          exact ⟨⟨descriptor, hdescriptor, hl, he⟩, rfl, htest.1.1.2, hdescriptor⟩

end Creation

section Gradient

/-- The energy of the plugin's reply to a request. -/
def pluginEnergy (pot : PluginPot ℝ I) (state : I) {n : ℕ} (request : Request ℝ n) : ℝ :=
  match (pot.m_descriptor.calculate request state).1 with
  | .ok (_, response) => response.energy
  | .error _ => 0

/-- The energy in the caller's slot after a force call. -/
noncomputable def writtenEnergy (pot : PluginPot ℝ I) (input : ForceInput ℝ)
    (s : Session ℝ I input.nAtoms) : ℝ :=
  (pot.forceImpl input s).2.output.elim 0 ForceOut.energy

/-- An input with one coordinate moved. -/
abbrev move (input : ForceInput ℝ) (k : Fin (3 * input.nAtoms)) (x : ℝ) : ForceInput ℝ :=
  { input with pos := input.pos.map fun pos => Function.update pos k x }

/-- The coordinates the plugin sees when one of the caller's moves. -/
theorem scaled_move {l : ℝ} {input : ForceInput ℝ} {pos : Fin (3 * input.nAtoms) → ℝ}
    (hpos : input.pos = some pos) (k : Fin (3 * input.nAtoms)) (x : ℝ) :
    scaled l (move input k x) = { scaled l input with
      positions := Function.update (scaled l input).positions k (x * l) } := by
  have hmoved : ∀ i : Fin (3 * input.nAtoms), Function.update pos k x i * l =
      Function.update (scaled l input).positions k (x * l) i := by
    intro i
    by_cases hi : i = k
    · rw [hi, Function.update_self, Function.update_self]
    · simp [scaled, hpos, hi]
  simp only [scaled, hpos, Option.map_some, Option.elim_some, Request.mk.injEq, and_true]
  funext i
  simpa [scaled, hpos] using hmoved i

/-- A call that returns has written `e` times the plugin's energy. -/
theorem Atomic.writtenEnergy_eq {pot : PluginPot ℝ I} {l e : ℝ} {input : ForceInput ℝ}
    {s : Session ℝ I input.nAtoms} (h : Atomic pot l e input s)
    (hok : (pot.forceImpl input s).1 = .ok ()) :
    writtenEnergy pot input s = e * pluginEnergy pot s.state (scaled l input) := by
  rcases h.2 with ⟨⟨what, herror⟩, _⟩ | ⟨_, response, before, after, hreply, _, hafter, hdelivered⟩
  · rw [hok] at herror
    cases herror
  · simp only [writtenEnergy, pluginEnergy, hafter, hreply, Option.elim_some]
    rw [hdelivered.energy, mul_comm]

/-- Where the plugin's force is minus the derivative of its energy, so is the written one. -/
def GradientKept (pot : PluginPot ℝ I) (l e : ℝ) (input : ForceInput ℝ)
    (s : Session ℝ I input.nAtoms) (response : Response ℝ input.nAtoms) : Prop :=
  ∀ (pos : Fin (3 * input.nAtoms) → ℝ) (k : Fin (3 * input.nAtoms)), input.pos = some pos →
    (∀ᶠ x in 𝓝 (pos k), (pot.forceImpl (move input k x) s).1 = .ok ()) →
    HasDerivAt (fun y => pluginEnergy pot s.state { scaled l input with
      positions := Function.update (scaled l input).positions k y })
      (-response.forces k) ((scaled l input).positions k) →
    HasDerivAt (fun x => writtenEnergy pot (move input k x) s)
      (-(e * l * response.forces k)) (pos k)

theorem PluginPot.gradientKept (pot : PluginPot ℝ I)
    (hforce : pot.m_force = pot.m_energy * pot.m_length) (input : ForceInput ℝ)
    (s : Session ℝ I input.nAtoms) (response : Response ℝ input.nAtoms) :
    GradientKept pot pot.m_length pot.m_energy input s response := by
  intro pos k hpos hnear hgradient
  have hseen : (scaled pot.m_length input).positions k = pos k * pot.m_length := by
    simp [scaled, hpos]
  have hwritten : (fun x => writtenEnergy pot (move input k x) s) =ᶠ[𝓝 (pos k)] fun x =>
      pot.m_energy * pluginEnergy pot s.state { scaled pot.m_length input with
        positions := Function.update (scaled pot.m_length input).positions k
          (x * pot.m_length) } := by
    filter_upwards [hnear] with x hx
    rw [(pot.atomic hforce (move input k x) s).writtenEnergy_eq hx, scaled_move hpos k x]
  have hinner : HasDerivAt (fun x : ℝ => x * pot.m_length) pot.m_length (pos k) :=
    hasDerivAt_mul_const pot.m_length
  rw [hseen] at hgradient
  have hchain := (HasDerivAt.comp (h := fun x : ℝ => x * pot.m_length) _ hgradient hinner).const_mul
    pot.m_energy
  refine (hchain.congr_of_eventuallyEq hwritten).congr_deriv ?_
  ring

/-- What the caller finds after a call that returns, in exact arithmetic. -/
structure Converted (l e : ℝ) {n : ℕ} (response : Response ℝ n) (before after : ForceOut ℝ n) :
    Prop where
  energy : after.energy = e * response.energy
  variance : after.variance = e ^ 2 * response.variance
  variance_nonneg : 0 ≤ response.variance
  F : after.F = before.F.map fun _ i => e * l * response.forces i
  has_stress : after.has_stress = 0
  stress : after.stress = fun _ => 0

theorem Delivered.converted {l e : ℝ} {n : ℕ} {response : Response ℝ n}
    {before after : ForceOut ℝ n} (he : 0 < e) (h : Delivered l e response before after) :
    Converted l e response before after where
  energy := by
    rw [h.energy, mul_comm]
  variance := by
    rw [h.variance]
    ring
  variance_nonneg := by
    have hsquare : 0 < e * e := mul_pos he he
    have hvariance : 0 ≤ response.variance * (e * e) := by
      have hnonneg := not_lt.mp h.variance_not_neg
      rwa [h.variance, mul_assoc] at hnonneg
    exact nonneg_of_mul_nonneg_left hvariance hsquare
  F := by
    rw [h.F]
    simp only [mul_comm]
  has_stress := h.has_stress
  stress := h.stress

end Gradient

/-- Whatever a plugin answers, a force call converts its reply as a whole or throws, and in exact
arithmetic the written forces are minus the gradient of the written energy where the plugin's are. -/
theorem plugin_evaluation_covariant :
    (∀ {K I : Type} [Add K] [Sub K] [MulOneClass K] [Div K] [Zero K] [LE K] [DecidableLE K] [LT K]
        [DecidableLT K] [Number K] [FiniteTest K] {source : Option (Descriptor K I)} {config : Text}
        {pot : PluginPot K I} {state : I}, create_from_plugin source config = .ok (pot, state) →
      ∃ l e, Factors source l e ∧ ∀ input s, Atomic pot l e input s) ∧
    ∀ {I : Type} {source : Option (Descriptor ℝ I)} {config : Text} {pot : PluginPot ℝ I} {state : I},
      create_from_plugin source config = .ok (pot, state) →
      ∃ l e, Factors source l e ∧ ∀ input s, (pot.forceImpl input s).1 = .ok () →
        ∃ response before after,
          (pot.m_descriptor.calculate (scaled l input) s.state).1 =
            .ok (RGPOT_PLUGIN_OK, response) ∧
          s.output = some before ∧ (pot.forceImpl input s).2.output = some after ∧
          Converted l e response before after ∧ GradientKept pot l e input s response := by
  constructor
  · intro K I _ _ _ _ _ _ _ _ _ _ _ source config pot state hcreate
    obtain ⟨hfactors, hforce, -⟩ := create_from_plugin_factors hcreate
    exact ⟨_, _, hfactors, fun input s => pot.atomic hforce input s⟩
  · intro I source config pot state hcreate
    obtain ⟨hfactors, hforce, henergy, -⟩ := create_from_plugin_factors hcreate
    refine ⟨_, _, hfactors, fun input s hok => ?_⟩
    rcases (pot.atomic hforce input s).2 with
      ⟨⟨what, herror⟩, _⟩ | ⟨_, response, before, after, hreply, hbefore, hafter, hdelivered⟩
    · rw [hok] at herror
      cases herror
    · exact ⟨response, before, after, hreply, hbefore, hafter,
        hdelivered.converted (not_le.mp henergy), pot.gradientKept hforce input s response⟩

/-- A harmonic plugin in bohr and hartree. -/
noncomputable def harmonic : Descriptor ℝ Unit where
  descriptor_size := 88
  api_version := 1
  name := some "contract-harmonic".toList
  version := some "1".toList
  length_unit := some "bohr".toList
  energy_unit := some "hartree".toList
  create := some fun _ => .ok (RGPOT_PLUGIN_OK, some ())
  destroy := some fun _ => ()
  calculate := some fun {_} request state =>
    (.ok (RGPOT_PLUGIN_OK,
      { energy := 1 / 8 * request.cell 0 + ∑ i, 1 / 2 * request.positions i * request.positions i
        variance := 1 / 4
        forces := fun i => -request.positions i }), state)
  capabilities := none
  last_error := none

theorem convert_angstrom_bohr : unit_conversion_factor "angstrom".toList "bohr".toList =
    .ok (Number.lit 1 (-10) / Number.lit 52917721054482 (-24) : ℝ) :=
  unit_conversion_factor_eq (u := ⟨Number.lit 1 (-10), DIM_LENGTH⟩)
    (v := ⟨Number.lit 52917721054482 (-24), DIM_LENGTH⟩) (by decide) (by decide) rfl rfl
    (Dimension.beq_self _)

theorem convert_hartree_eV : unit_conversion_factor "hartree".toList "eV".toList =
    .ok (Number.lit 4359744722206048 (-33) / Number.lit 1602176634 (-28) : ℝ) :=
  unit_conversion_factor_eq (u := ⟨Number.lit 4359744722206048 (-33), DIM_ENERGY⟩)
    (v := ⟨Number.lit 1602176634 (-28), DIM_ENERGY⟩) (by decide) (by decide) rfl rfl
    (Dimension.beq_self _)

theorem returns_bind {α β : Type} {x : Except Exn α} {f : α → Except Exn β} {a : α} (hx : x = .ok a)
    (hf : ∃ b, f a = .ok b) : ∃ b, (x >>= f) = .ok b := by
  rw [hx]
  exact hf

theorem exists_harmonic : ∃ pot, create_from_plugin (some harmonic) "{}".toList = .ok (pot, ()) := by
  have hlength : (0 : ℝ) < Number.lit 1 (-10) / Number.lit 52917721054482 (-24) := by
    norm_num [Number.lit]
  have henergy : (0 : ℝ) < Number.lit 4359744722206048 (-33) / Number.lit 1602176634 (-28) := by
    norm_num [Number.lit]
  obtain ⟨descriptor, hdescriptor, hl, he, hmade, hcaps⟩ : ∃ d : CheckedDescriptor ℝ Unit,
      checkedDescriptor (some harmonic) = .ok d ∧
        unitOr d.length_unit "angstrom" = "bohr".toList ∧
        unitOr d.energy_unit "eV" = "hartree".toList ∧
        (∀ config, d.create config = .ok (RGPOT_PLUGIN_OK, some ())) ∧ d.capabilities = none :=
    ⟨_, rfl, rfl, rfl, fun _ => rfl, rfl⟩
  have hcreate : ∃ made, create_from_plugin (some harmonic) "{}".toList = .ok made := by
    have htest : ¬ (!isfinite (Number.lit 1 (-10) / Number.lit 52917721054482 (-24) : ℝ) ||
        !isfinite (Number.lit 4359744722206048 (-33) / Number.lit 1602176634 (-28) : ℝ) ||
        decide ((Number.lit 1 (-10) / Number.lit 52917721054482 (-24) : ℝ) ≤ 0) ||
        decide ((Number.lit 4359744722206048 (-33) / Number.lit 1602176634 (-28) : ℝ) ≤ 0) ||
        !isfinite ((Number.lit 1 (-10) / Number.lit 52917721054482 (-24) : ℝ) *
          (Number.lit 4359744722206048 (-33) / Number.lit 1602176634 (-28))) ||
        !isfinite ((Number.lit 4359744722206048 (-33) / Number.lit 1602176634 (-28) : ℝ) *
          (Number.lit 4359744722206048 (-33) / Number.lit 1602176634 (-28)))) = true := by
      simp [isfinite, hlength, henergy]
    apply returns_bind hdescriptor
    simp only [hl, he]
    apply returns_bind convert_angstrom_bohr
    apply returns_bind convert_hartree_eV
    rw [if_neg htest]
    apply returns_bind (hmade _)
    simp only [hcaps]
    exact ⟨_, rfl⟩
  obtain ⟨⟨pot, ⟨⟩⟩, hpot⟩ := hcreate
  exact ⟨pot, hpot⟩

/-- One oxygen in a unit cube. -/
def oneAtom : ForceInput ℝ := ⟨1, some fun _ => 1, some fun _ => 8, some fun _ => 1⟩

def oneSession : Session ℝ Unit oneAtom.nAtoms := ⟨(), [], some ⟨some fun _ => 0, 0, 0, fun _ => 0, 0⟩⟩

/-- The harmonic plugin answers it. -/
theorem harmonic_returns {pot : PluginPot ℝ Unit}
    (hpot : create_from_plugin (some harmonic) "{}".toList = .ok (pot, ())) :
    (pot.forceImpl oneAtom oneSession).1 = .ok () := by
  obtain ⟨-, -, henergy, hdescriptor⟩ := create_from_plugin_factors hpot
  have hreply : ∃ response : Response ℝ 1, response.variance = 1 / 4 ∧
      pot.m_descriptor.calculate (scaled pot.m_length oneAtom) () = (.ok (RGPOT_PLUGIN_OK, response), ()) := by
    obtain ⟨descriptor, hchecked, hcalculate⟩ : ∃ d, checkedDescriptor (some harmonic) = .ok d ∧
        ∀ request : Request ℝ 1, ∃ response : Response ℝ 1, response.variance = 1 / 4 ∧
          d.calculate request () = (.ok (RGPOT_PLUGIN_OK, response), ()) :=
      ⟨_, rfl, fun _ => ⟨_, rfl, rfl⟩⟩
    obtain rfl := Except.ok.inj (hchecked.symm.trans hdescriptor)
    exact hcalculate _
  obtain ⟨response, hvariance, hcalculate⟩ := hreply
  have hpositive : 0 ≤ response.variance * pot.m_energy * pot.m_energy := by
    have hfactor := (not_le.mp henergy).le
    rw [hvariance]
    positivity
  have hbuffers : invalidBuffers oneAtom oneSession.output = false := by decide
  have hstate : pot.m_descriptor.calculate (scaled pot.m_length oneAtom) oneSession.state =
      (.ok (RGPOT_PLUGIN_OK, response), ()) := hcalculate
  simp [PluginPot.forceImpl, hbuffers, hstate, isfinite, not_lt.mpr hpositive]

theorem plugin_evaluation_covariant_harmonic : ∃ pot : PluginPot ℝ Unit,
    create_from_plugin (some harmonic) "{}".toList = .ok (pot, ()) ∧
      (∃ l e, Factors (some harmonic) l e ∧ ∀ input s, Atomic pot l e input s) ∧
      ∃ l e, Factors (some harmonic) l e ∧ ∃ response before after,
        (pot.m_descriptor.calculate (scaled l oneAtom) ()).1 = .ok (RGPOT_PLUGIN_OK, response) ∧
        oneSession.output = some before ∧ (pot.forceImpl oneAtom oneSession).2.output = some after ∧
        Converted l e response before after ∧ GradientKept pot l e oneAtom oneSession response := by
  obtain ⟨pot, hpot⟩ := exists_harmonic
  obtain ⟨l, e, hfactors, hconverted⟩ := plugin_evaluation_covariant.2 hpot
  exact ⟨pot, hpot, plugin_evaluation_covariant.1 hpot, l, e, hfactors,
    hconverted oneAtom oneSession (harmonic_returns hpot)⟩

end Rgpot.Plugin
