import Rgpot.Cache.Configs
import Rgpot.Calculators.Group

/-! `CPMDPot`: the engine bundle it loads and the engine session it holds. -/
namespace Rgpot.Cpmd
open Rgpot.Cache (Str Config)

/-- The functions of the engine ABI that the adapter looks up. -/
inductive Symbol where
  | energy_gradient
  | set_params
  | session_create
  | session_destroy
  | potential_result_size_for_force_input
  | session_calculate_result
  | feature_count
  | feature_table
  | feature_find
  deriving DecidableEq

/-- An open engine library: the symbols it exports, and the address of its communicator adopter. -/
structure Library where
  handle : ℕ
  exports : List Symbol
  adopt_comm : Option ℕ
  deriving DecidableEq

/-- What a library is asked to do with sessions. A session is known by its place in the list of these
calls. -/
inductive EngineCall where
  | create (lib : Library) (params : Str) (engine_path : String) (session : Option ℕ)
  | destroy (lib : Library) (session : ℕ)
  deriving DecidableEq

/-- The outside of one call: the environment and the dynamic linker, whether the engine makes a
session and takes parameters, and what an adopter answers. `reopened` is the adopter found when the
library is opened a second time to be kept. -/
structure Answers where
  getenv : String → Option String
  dlopen : String → Except String Library
  reopened : Except String (Option ℕ)
  session_create : Bool
  set_params : Bool
  adopter : ℤ

def sym_optional (lib : Library) (s : Symbol) : Option Library :=
  if s ∈ lib.exports then some lib else none

/-- A function pointer is known by the library it was found in. -/
structure EngineBundle where
  energy_gradient : Option Library := none
  set_params : Option Library := none
  session_create : Option Library := none
  session_destroy : Option Library := none
  potential_result_size_for_force_input : Option Library := none
  session_calculate_result : Option Library := none
  feature_count : Option Library := none
  feature_table : Option Library := none
  feature_find : Option Library := none
  adopt_comm : Option ℕ := none
  loaded_path : String := ""
  load_error : String := ""
  loaded : Bool := false
  deriving DecidableEq

def engine_lib_candidates (a : Answers) (explicit_path : String) : List String :=
  (if explicit_path ≠ "" then [explicit_path] else []) ++
    (a.getenv "CPMDC_LIBRARY").toList ++ (a.getenv "RGPOT_CPMDC_ENGINE").toList ++
    (a.getenv "RGPOT_CPMD_ENGINE").toList ++
    ["libcpmdc.so", "./libcpmdc.so", "libcpmdc.dylib", "./libcpmdc.dylib", "cpmdc.dll"]

/-- The first candidate that opens, or the error of the last. -/
def openFirst (a : Answers) : List String → String → Except String (String × Library)
  | [], err => .error err
  | cand :: rest, _ =>
    match a.dlopen cand with
    | .ok lib => .ok (cand, lib)
    | .error err => openFirst a rest err

namespace EngineBundle

def has_session_result_abi (b : EngineBundle) : Bool :=
  b.session_create.isSome && b.session_destroy.isSome &&
    b.potential_result_size_for_force_input.isSome && b.session_calculate_result.isSome

def has_one_shot (b : EngineBundle) : Bool := b.energy_gradient.isSome && b.set_params.isSome

def has_feature_discovery (b : EngineBundle) : Bool :=
  b.feature_count.isSome && b.feature_table.isSome && b.feature_find.isSome

/-- The bundle after `try_load_engine`; `loaded` is what it returns. -/
def try_load_engine (a : Answers) (engine_path : String) : EngineBundle :=
  match openFirst a (engine_lib_candidates a engine_path) "" with
  | .error eng_err => { load_error := "libcpmdc not loaded: " ++ eng_err }
  | .ok (cand, lib) =>
    let b : EngineBundle :=
      { energy_gradient := sym_optional lib .energy_gradient
        set_params := sym_optional lib .set_params
        session_create := sym_optional lib .session_create
        session_destroy := sym_optional lib .session_destroy
        potential_result_size_for_force_input :=
          sym_optional lib .potential_result_size_for_force_input
        session_calculate_result := sym_optional lib .session_calculate_result
        feature_count := sym_optional lib .feature_count
        feature_table := sym_optional lib .feature_table
        feature_find := sym_optional lib .feature_find
        adopt_comm := lib.adopt_comm
        loaded_path := cand }
    if ¬ b.has_feature_discovery then
      { b with load_error := "engine missing cpmdc feature discovery ABI" }
    else if ¬ b.has_one_shot ∧ ¬ b.has_session_result_abi then
      { b with load_error := "engine missing cpmdc session result ABI or one-shot gradient ABI" }
    else { b with loaded := true }

end EngineBundle

/-- What the potentials of a process share: the calculator registry, and the adopters whose engines
are kept open. -/
structure Shared where
  calculators : Calculators.Process ℕ ℕ
  engines : List ℕ

/-- `register_engine_adopter`. -/
def Shared.register_engine_adopter (a : Answers) (b : EngineBundle) (g : Shared) :
    Except String Bool × Shared :=
  match b.adopt_comm with
  | none => (.ok true, g)
  | some callback =>
    let add (g : Shared) : Except String Bool × Shared :=
      let (accepted, calculators) := g.calculators.addCalculatorCommAdopter (some callback) a.adopter
      (.ok accepted, { g with calculators := calculators })
    if callback ∈ g.engines then add g
    else
      match a.reopened with
      | .error e => (.error e, g)
      | .ok found =>
        if found ≠ some callback then
          (.error "CPMD communicator callback changed while loading", g)
        else add { g with engines := g.engines ++ [callback] }

/-- `CPMDPot::Impl`, with the calls it has made. -/
structure Impl where
  bundle : EngineBundle := {}
  params_words : Str
  engine_path : String := ""
  session : Option ℕ := none
  session_params : List UInt8 := []
  session_engine_path : String := ""
  params_key : UInt64 := 0
  calls : List EngineCall := []

/-- A `CPMDParams` message: its serialized form, which carries the path as well. -/
structure CPMDParams where
  words : Str
  enginePath : String

namespace Impl

def recomputeParamsKey (i : Impl) : Impl :=
  { i with params_key := (Config.cpmd i.params_words).paramsKey }

def destroySession (i : Impl) : Impl :=
  { i with
    calls := match i.session, i.bundle.session_destroy with
      | some session, some lib => i.calls ++ [.destroy lib session]
      | _, _ => i.calls
    session := none
    session_params := []
    session_engine_path := "" }

/-- A new session from the stored parameters. -/
def createSession (a : Answers) (i : Impl) : Bool × Impl :=
  match i.bundle.session_create with
  | none => (false, i)
  | some lib =>
    let session := if a.session_create then some i.calls.length else none
    let i := { i with session := session
                      calls := i.calls ++ [.create lib i.params_words i.engine_path session] }
    if session = none then (false, i)
    else (true, { i with session_params := i.params_words.bytes
                         session_engine_path := i.engine_path })

/-- The engine has the parameters it needs: a live session, or the one-shot interface. -/
def applyParams (a : Answers) (i : Impl) : Bool × Impl :=
  if i.bundle.has_session_result_abi then
    -- a session holds the converged wavefunction, so it is kept when nothing it saw has changed
    if i.session.isSome ∧ i.engine_path = i.session_engine_path ∧
        i.params_words.bytes = i.session_params then
      (true, i)
    else i.destroySession.createSession a
  else (i.bundle.set_params.isSome ∧ a.set_params, i.destroySession)

def configure (a : Answers) (i : Impl) (g : Shared) : Except String Bool × Impl × Shared :=
  match g.register_engine_adopter a i.bundle with
  | (.error e, g) => (.error e, i, g)
  | (.ok false, g) =>
    let bundle := { i.bundle with
      load_error := "engine refused calculator communicator", loaded := false }
    (.ok false, { i with bundle := bundle }.destroySession, g)
  | (.ok true, g) =>
    let (ok, i) := i.applyParams a
    (.ok ok, i, g)

/-- The constructors: of the given parameters, or of the default message `words`. -/
def construct (a : Answers) (words : Str) (engine_path : String) (g : Shared) :
    Except String Unit × Impl × Shared :=
  let i := { params_words := words : Impl }.recomputeParamsKey
  let i := { i with engine_path := engine_path }
  let i := { i with bundle := .try_load_engine a i.engine_path }
  if i.bundle.loaded then
    let (r, i, g) := i.configure a g
    (r.map fun _ => (), i, g)
  else (.ok (), i, g)

/-- `CPMDPot::setParams`. -/
def setParams (a : Answers) (params : CPMDParams) (i : Impl) (g : Shared) :
    Except String Bool × Impl × Shared :=
  let need_reload := ¬ i.bundle.loaded ∨ params.enginePath ≠ i.engine_path
  let i := { i with params_words := params.words }.recomputeParamsKey
  let i := { i with engine_path := params.enginePath }
  let i := if need_reload then
      { i.destroySession with bundle := .try_load_engine a i.engine_path }
    else i
  if i.bundle.loaded then i.configure a g else (.ok false, i, g)

end Impl

/-- A potential object and whether it still exists; a constructor that throws leaves none. -/
structure Pot where
  impl : Impl
  alive : Bool

structure Process where
  shared : Shared := ⟨{}, []⟩
  pots : List Pot := []

/-- What a process does with CPMD potentials, between arbitrary registrations and binds. -/
inductive Event where
  | construct (a : Answers) (words : Str) (engine_path : String)
  | setParams (a : Answers) (pot : ℕ) (params : CPMDParams)
  | destroy (pot : ℕ)
  | calculators (e : Calculators.Event ℕ ℕ)

namespace Process

def step (w : Calculators.World) (p : Process) : Event → Process
  | .construct a words engine_path =>
    let (r, i, g) := Impl.construct a words engine_path p.shared
    { shared := g, pots := p.pots ++ [⟨i, r matches .ok _⟩] }
  | .setParams a pot params =>
    match p.pots[pot]? with
    | some ⟨i, true⟩ =>
      let (_, i, g) := i.setParams a params p.shared
      { shared := g, pots := p.pots.set pot ⟨i, true⟩ }
    | _ => p
  | .destroy pot =>
    match p.pots[pot]? with
    | some ⟨i, true⟩ => { p with pots := p.pots.set pot ⟨i.destroySession, false⟩ }
    | _ => p
  | .calculators e =>
    { p with shared := { p.shared with calculators := p.shared.calculators.step w e } }

/-- The process after a sequence of events. -/
def run (w : Calculators.World) (es : List Event) : Process := es.foldl (step w) {}

end Process

end Rgpot.Cpmd
