import Rgpot.Lib.Component
import Rgpot.ExprPot.Tree
import Rgpot.LennardJones.LJPot

/-! The kernels over native engines: the handles `XTBPot`, `TBLitePot`, `D3Pot` and `D4Pot` keep
between calls. -/
namespace Rgpot.Engines
open Component

abbrev ForceInput (K : Type) := ExprPot.ForceInput K

abbrev ForceOut (K : Type) (n : ℕ) := ExprPot.ForceOut K n

/-- Atom count and species. -/
abbrev Composition := (natoms : Int32) × (Fin natoms.toNatClampNeg → Int32)

/-- What a structure handle holds. -/
structure Molecule (K : Type) where
  comp : Composition
  positions : Fin (3 * comp.1.toNatClampNeg) → K
  lattice : Fin 9 → K

/-- A single point in atomic units; the virial is column-major. -/
structure Answer (K : Type) (c : Composition) where
  energy : K
  gradient : Fin (3 * c.1.toNatClampNeg) → K
  virial : Fin 9 → K

/-- A native library under the configurations `C`: a new structure with its messages, the messages of an
update and of loading the model, and the result or its message. A result is a function of the structure
and the configuration alone, so a structure that has one can be made and its model loaded. -/
structure Engine (K C : Type) where
  newStructure : C → Molecule K → Bool × List String
  update : Molecule K → List String
  newModel : C → Composition → List String
  result : C → (m : Molecule K) → Except String (Answer K m.comp)
  missing : String
  getError : List String → String × List String
  result_new : ∀ c m a, result c m = .ok a → newStructure c m = (true, []) ∧ newModel c m.comp = []

/-- How a force call fails: an exception, or an access past the end of a buffer. -/
inductive Failure where
  | thrown (e : Exn)
  | overrun

inductive GFNMethod where
  | GFNFF | GFN0xTB | GFN1xTB | GFN2xTB

structure XTBConfig (K : Type) where
  method : GFNMethod
  accuracy : K
  electronic_temperature : K
  max_iterations : Int32
  charge : K
  uhf : Int32

inductive TBLiteMethod where
  | GFN1 | GFN2 | IPEA1

structure TBLiteConfig (K : Type) where
  method : TBLiteMethod
  accuracy : K
  electronic_temperature : K
  max_iterations : Int32
  charge : K
  uhf : Int32

inductive D3Damping where
  | BJ | Zero

structure D3Config where
  damping : D3Damping := .BJ
  functional : String := "pbe"
  atm : Bool := true

structure D4Config (K : Type) where
  functional : String
  charge : K
  atm : Bool

variable {K C : Type} [Field K]

def BOHR_TO_ANGSTROM : K := 0.529177210903

def ANGSTROM_TO_BOHR : K := 1 / BOHR_TO_ANGSTROM

def HARTREE_TO_EV : K := 27.211386245988

def HARTREE_BOHR_TO_EV_ANGSTROM : K := HARTREE_TO_EV / BOHR_TO_ANGSTROM

def NEG_GRAD_TO_FORCE : K := -HARTREE_BOHR_TO_EV_ANGSTROM

section Input
variable (input : ForceInput K)

/-- `static_cast<int>(in.nAtoms)`. -/
def intN : Int32 := Int32.ofNat input.nAtoms

def pos_bohr (i : Fin (3 * input.nAtoms)) : K := input.pos i * ANGSTROM_TO_BOHR

def box_bohr (i : Fin 9) : K := input.box i * ANGSTROM_TO_BOHR

omit [Field K] in
theorem intN_le : (intN input).toNatClampNeg ≤ input.nAtoms := by
  have hwrap : (intN input).toInt = (input.nAtoms : ℤ).bmod (2 ^ 32) := Int32.toInt_ofNat
  have hclamp : (intN input).toNatClampNeg = (intN input).toInt.toNat := rfl
  rw [hclamp, hwrap, Int.bmod_def]
  split <;> omega

/-- The species an engine reads. -/
def composition : Composition :=
  ⟨intN input, fun i => input.atmnrs (i.castLE (intN_le input))⟩

/-- A structure of the composition `c` at the positions and the cell of the input. -/
def place (c : Composition) (h : c.1.toNatClampNeg ≤ input.nAtoms) : Molecule K where
  comp := c
  positions i := pos_bohr input (i.castLE (Nat.mul_le_mul_left 3 h))
  lattice := box_bohr input

/-- The structure of the input. -/
def molecule : Molecule K := place input (composition input) (intN_le input)

/-- An update through a handle reads the positions for the atom count of its structure. -/
def updated (mol : Molecule K) : Option (Molecule K) :=
  if h : mol.comp.1.toNatClampNeg ≤ input.nAtoms then some (place input mol.comp h) else none

variable (out : ForceOut K input.nAtoms)

/-- The energy, and the gradient written over the buffer before the whole buffer is scaled. -/
def publish {c : Composition} (a : Answer K c) : ForceOut K input.nAtoms :=
  { out with
    energy := a.energy * HARTREE_TO_EV
    F := out.F.map fun F k =>
      (if h : k.val < 3 * c.1.toNatClampNeg then a.gradient ⟨k, h⟩ else F k) * NEG_GRAD_TO_FORCE
    variance := some 0 }

/-- The stress of the engines that report one; the virial is transposed to row-major. -/
def publishVirial [LinearOrder K] {c : Composition} (a : Answer K c) (out : ForceOut K input.nAtoms) :
    ForceOut K input.nAtoms :=
  let volume := cellVolume fun i j => input.box ⟨3 * i + j, by omega⟩
  if 0 < volume then
    let scale := HARTREE_TO_EV / volume
    { out with
      stress := fun i => a.virial ⟨i / 3 + 3 * (i % 3), by omega⟩ * scale
      has_stress := 1 }
  else { out with has_stress := 0 }

end Input

/-- The handles a kernel keeps: `m_mol`, whether its calculator or model is there, the bookkeeping of the
reuse test, and the messages pending in the environment, context or error handle. -/
structure Handles (K : Type) where
  m_mol : Option (Molecule K)
  m_model : Bool
  m_initialized : Bool
  m_natoms : Int32
  messages : List String

/-- The handles after construction. -/
def fresh : Handles K := ⟨none, false, false, 0, []⟩

abbrev Step (K α : Type) := Except Failure α × Handles K

section Operations
variable {α : Type} (E : Engine K C) (c : C) (input : ForceInput K) (s : Handles K)

/-- Throws the pending messages under the text of the step. -/
def throwPending (what : String) : Step K α :=
  let r := E.getError s.messages
  (.error (.thrown (.runtimeError (what ++ ": " ++ r.1))), { s with messages := r.2 })

def throwIfError (what : String) : Step K Unit :=
  if s.messages = [] then (.ok (), s) else throwPending E s what

/-- A step with an error handle of its own, which is read and deleted before the next step. -/
def ownError (what : String) (step : Handles K → Step K Unit) : Step K Unit :=
  andThen (step { s with messages := [] }) fun _ t =>
    if t.messages = [] then (.ok (), { t with messages := s.messages })
    else (.error (.thrown (.runtimeError (what ++ ": " ++ (E.getError t.messages).1))),
      { t with messages := s.messages })

/-- A new structure in place of the old handle; no model is loaded for it yet. -/
def newStructure : Handles K :=
  let r := E.newStructure c (molecule input)
  { s with
    m_mol := if r.1 then some (molecule input) else none
    m_model := false
    messages := s.messages ++ r.2 }

/-- The model of the structure that is held. -/
def newModel : Handles K :=
  let messages := s.m_mol.elim [E.missing] fun mol => E.newModel c mol.comp
  { s with
    m_model := messages = []
    messages := s.messages ++ messages }

/-- New positions and a new cell for the structure that is held. -/
def update : Step K Unit :=
  match s.m_mol with
  | none => (.ok (), { s with messages := s.messages ++ [E.missing] })
  | some mol =>
    match updated input mol with
    | none => (.error .overrun, s)
    | some mol => (.ok (), { s with m_mol := some mol, messages := s.messages ++ E.update mol })

/-- The result of the handles, which must all be there. -/
def singlepoint : Except String ((comp : Composition) × Answer K comp) :=
  match s.m_mol with
  | none => .error E.missing
  | some mol => if s.m_model then (E.result c mol).map (Sigma.mk mol.comp) else .error E.missing

/-- A single point whose messages are thrown under the text of the step. -/
def evaluate (what : String) : Step K ((comp : Composition) × Answer K comp) :=
  match singlepoint E c s with
  | .error message => throwPending E { s with messages := s.messages ++ [message] } what
  | .ok a => if s.messages = [] then (.ok a, s) else throwPending E s what

end Operations

/-- What a force call reads and where it writes. -/
abbrev Call (K : Type) := (input : ForceInput K) × ForceOut K input.nAtoms

section Kernels
variable [LinearOrder K] (call : Call K) (s : Handles K)

/-- A structure is made once; whether it could be made is not asked. -/
def XTBPot.prepare (E : Engine K (XTBConfig K)) (m_config : XTBConfig K) : Step K Unit :=
  if ¬ s.m_initialized then
    (.ok (), { newModel E m_config (newStructure E m_config call.1 s) with m_initialized := true })
  else update E call.1 s

def XTBPot.forceImpl (E : Engine K (XTBConfig K)) (m_config : XTBConfig K) :
    Step K (ForceOut K call.1.nAtoms) :=
  andThen (XTBPot.prepare call s E m_config) fun _ s =>
    andThen (evaluate E m_config s "xTB Error") fun a s =>
      (.ok (publishVirial call.1 a.2 (publish call.1 call.2 a.2)), s)

/-- A structure is made once it and its calculator can be made. -/
def TBLitePot.prepare (E : Engine K (TBLiteConfig K)) (m_config : TBLiteConfig K) : Step K Unit :=
  if ¬ s.m_initialized then
    andThen (ownError E s "tblite structure error" fun s =>
        (.ok (), newStructure E m_config call.1 s)) fun _ s =>
      andThen (throwIfError E (newModel E m_config s) "tblite calculator error") fun _ s =>
        (.ok (), { s with m_initialized := true })
  else ownError E s "tblite update error" (update E call.1)

def TBLitePot.forceImpl (E : Engine K (TBLiteConfig K)) (m_config : TBLiteConfig K) :
    Step K (ForceOut K call.1.nAtoms) :=
  andThen (TBLitePot.prepare call s E m_config) fun _ s =>
    andThen (evaluate E m_config s "tblite SCF error") fun a s =>
      (.ok (publishVirial call.1 a.2 (publish call.1 call.2 a.2)), s)

/-- The texts of the four steps of a dispersion kernel. -/
structure Texts where
  structure' : String
  model : String
  update : String
  dispersion : String

/-- A structure and a model are made when there were none, or none for this many atoms. -/
def dispersionPrepare (texts : Texts) (E : Engine K C) (m_config : C) : Step K Unit :=
  if ¬ s.m_initialized ∨ s.m_natoms ≠ intN call.1 then
    andThen (throwIfError E (newStructure E m_config call.1 s) texts.structure') fun _ s =>
      andThen (throwIfError E (newModel E m_config s) texts.model) fun _ s =>
        (.ok (), { s with m_natoms := intN call.1, m_initialized := true })
  else
    andThen (update E call.1 s) fun _ s => throwIfError E s texts.update

def dispersionForceImpl (texts : Texts) (E : Engine K C) (m_config : C) :
    Step K (ForceOut K call.1.nAtoms) :=
  andThen (dispersionPrepare call s texts E m_config) fun _ s =>
    andThen (evaluate E m_config s texts.dispersion) fun a s => (.ok (publish call.1 call.2 a.2), s)

def D3Pot.forceImpl (E : Engine K D3Config) (m_config : D3Config) :
    Step K (ForceOut K call.1.nAtoms) :=
  dispersionForceImpl call s ⟨"s-dftd3 new structure", "s-dftd3 new D3 model",
    "s-dftd3 update structure", "s-dftd3 get dispersion"⟩ E m_config

def D4Pot.forceImpl (E : Engine K (D4Config K)) (m_config : D4Config K) :
    Step K (ForceOut K call.1.nAtoms) :=
  dispersionForceImpl call s ⟨"dftd4 new structure", "dftd4 new D4 model",
    "dftd4 update structure", "dftd4 get dispersion"⟩ E m_config

end Kernels
end Rgpot.Engines
