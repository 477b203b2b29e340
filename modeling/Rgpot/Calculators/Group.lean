import Rgpot.Lib.Numerals
import Mathlib.Tactic

/-! Calculator groups of one process: registered hooks and adopters, and the bind that asks them. -/
namespace Rgpot.Calculators

structure CalculatorGroup where
  index : ℤ := 0
  ranks : ℤ := 1
  rank_in_group : ℤ := 0
  world_size : ℤ := 1
  deriving DecidableEq

/-- `MPI_COMM_WORLD` as one of its processes sees it. -/
structure World where
  size : ℕ
  rank : ℕ
  rank_lt : rank < size

/-- The globals of librgpot_mpi. A communicator is known by the colour of its split. -/
structure MpiSide where
  group : CalculatorGroup := {}
  bound : Bool := false
  comm : Option ℤ := none

/-- The ranks a calculator gets; all of them when the caller leaves it open. -/
def ranksPerCalculator (size ranks_per_calculator : ℤ) : ℤ :=
  if ranks_per_calculator ≤ 0 then size else ranks_per_calculator

/-- The world can be divided into calculators of so many ranks. -/
def World.Divides (w : World) (ranks_per_calculator : ℤ) : Prop :=
  ranksPerCalculator w.size ranks_per_calculator ≤ w.size ∧
    (w.size : ℤ) % ranksPerCalculator w.size ranks_per_calculator = 0

/-- `bind` of librgpot_mpi. `split` says whether `MPI_Comm_split` gives a communicator. -/
def MpiSide.bind (w : World) (split : Bool) (ranks_per_calculator : ℤ) (m : MpiSide) : MpiSide :=
  let rpc := ranksPerCalculator w.size ranks_per_calculator
  if rpc > w.size ∨ (w.size : ℤ) % rpc ≠ 0 then
    { m with group := { index := -1, ranks := 1, rank_in_group := 0, world_size := w.size }
             bound := true }
  else
    { group := { index := w.rank / rpc, ranks := rpc, rank_in_group := w.rank % rpc
                 world_size := w.size }
      bound := true
      comm := if split then some (w.rank / rpc) else none }

/-- The communicator `adopt` passes on. -/
def MpiSide.adopted (m : MpiSide) : Option ℤ :=
  if ¬ m.bound ∨ m.group.index < 0 then none else m.comm

/-- A call of an adopter: the communicator and the ranks it was given, and what it returned. -/
structure Adoption (Adopter : Type) where
  callback : Adopter
  comm : ℤ
  ranks : ℤ
  answer : ℤ
  deriving DecidableEq

/-- A call of a hook. -/
structure HookCall (Hook : Type) where
  hook : Hook
  ranks_per_calculator : ℤ
  answer : ℤ
  deriving DecidableEq

/-- The globals of the calculator-group API, and the callback calls made so far. -/
structure Process (Hook Adopter : Type) where
  hooks : List Hook := []
  adopters : List Adopter := []
  group : CalculatorGroup := {}
  bound_rpc : ℤ := 0
  bound : Bool := false
  api : Option MpiSide := none
  hookCalls : List (HookCall Hook) := []
  adoptions : List (Adoption Adopter) := []

/-- The calls a process makes. Callbacks answer as they like, and loading the MPI side and splitting
the world succeed or fail. -/
inductive Event (Hook Adopter : Type) where
  | addCalculatorHook (hook : Option Hook)
  | addCalculatorCommAdopter (callback : Option Adopter) (answer : ℤ)
  | loadCalculatorMpi (ok : Bool)
  | bindCalculators (ranks_per_calculator : ℤ) (loads split : Bool) (hook : Hook → ℤ)
      (adopter : Adopter → ℤ)

namespace Process
variable {Hook Adopter : Type}

def refuse (s : Process Hook Adopter) : Process Hook Adopter :=
  { s with group := { s.group with index := -1 } }

def loadCalculatorMpi (ok : Bool) (s : Process Hook Adopter) : Process Hook Adopter :=
  match s.api with
  | some _ => s
  | none => if ok then { s with api := some {} } else s

/-- The communicator an adopter would be given now. -/
def comm (s : Process Hook Adopter) : Option ℤ := s.api.bind MpiSide.adopted

/-- `adoptCalculatorComm`: what it returns, and the process after it. -/
def adoptCalculatorComm (callback : Adopter) (answer : ℤ) (s : Process Hook Adopter) :
    ℤ × Process Hook Adopter :=
  match s.api with
  | none => (-1, s)
  | some mpi =>
    match mpi.adopted with
    | none => (-1, s)
    | some comm =>
      (answer, { s with adoptions := s.adoptions ++ [⟨callback, comm, mpi.group.ranks, answer⟩] })

section Registration
variable [DecidableEq Hook] [DecidableEq Adopter]

def addCalculatorHook (hook : Option Hook) (s : Process Hook Adopter) : Process Hook Adopter :=
  match hook with
  | none => s
  | some hook => if hook ∈ s.hooks then s else { s with hooks := s.hooks ++ [hook] }

/-- `addCalculatorCommAdopter`: whether the callback is registered and not refused, and the process
after it. -/
def addCalculatorCommAdopter (callback : Option Adopter) (answer : ℤ) (s : Process Hook Adopter) :
    Bool × Process Hook Adopter :=
  match callback with
  | none => (false, s)
  | some callback =>
    if callback ∈ s.adopters then (¬ s.bound ∨ s.group.index ≥ 0, s)
    else if s.bound ∧ s.group.index < 0 then (false, s)
    else
      let s := { s with adopters := s.adopters ++ [callback] }
      if s.bound then
        let (idx, s) := s.adoptCalculatorComm callback answer
        if idx ≠ s.group.index then (false, s.refuse) else (true, s)
      else (true, s)

end Registration

/-- The group before any callback is asked, and the ranks per calculator to ask them with. -/
def splitWorld (w : World) (ranks_per_calculator : ℤ) (split : Bool) (s : Process Hook Adopter) :
    ℤ × Process Hook Adopter :=
  match s.api with
  | some mpi =>
    let mpi := mpi.bind w split ranks_per_calculator
    (if ranks_per_calculator ≤ 0 then mpi.group.world_size else ranks_per_calculator,
      { s with api := some mpi, group := mpi.group })
  | none =>
    let rpc := if ranks_per_calculator ≤ 0 then 1 else ranks_per_calculator
    (rpc, { s with group := if rpc ≠ 1 then { index := -1 }
                            else { index := 0, ranks := 1, world_size := 1 } })

/-- A hook cannot recover a refused split or another hook's refusal. -/
def askHook (rpc : ℤ) (hook : Hook → ℤ) (s : Process Hook Adopter) (h : Hook) :
    Process Hook Adopter :=
  let s := { s with hookCalls := s.hookCalls ++ [⟨h, rpc, hook h⟩] }
  if hook h < 0 then s.refuse else s

def askAdopter (expected_index : ℤ) (adopter : Adopter → ℤ) (s : Process Hook Adopter)
    (a : Adopter) : Process Hook Adopter :=
  let (idx, s) := s.adoptCalculatorComm a (adopter a)
  if idx < 0 ∨ idx ≠ expected_index then s.refuse else s

/-- `bindCalculators`: what it returns, and the process after it. -/
def bindCalculators (w : World) (ranks_per_calculator : ℤ) (loads split : Bool) (hook : Hook → ℤ)
    (adopter : Adopter → ℤ) (s : Process Hook Adopter) : CalculatorGroup × Process Hook Adopter :=
  let s := s.loadCalculatorMpi loads
  if s.bound ∧ s.bound_rpc = ranks_per_calculator then (s.group, s)
  else if s.bound then ({ index := -1 }, s)
  else
    let (rpc, s) := s.splitWorld w ranks_per_calculator split
    let expected_index := s.group.index
    let s := s.hooks.foldl (askHook rpc hook) s
    let s := s.adopters.foldl (askAdopter expected_index adopter) s
    let s := { s with bound := true, bound_rpc := rpc }
    (s.group, s)

variable [DecidableEq Hook] [DecidableEq Adopter]

def step (w : World) (s : Process Hook Adopter) : Event Hook Adopter → Process Hook Adopter
  | .addCalculatorHook hook => s.addCalculatorHook hook
  | .addCalculatorCommAdopter callback answer => (s.addCalculatorCommAdopter callback answer).2
  | .loadCalculatorMpi ok => s.loadCalculatorMpi ok
  | .bindCalculators ranks_per_calculator loads split hook adopter =>
    (s.bindCalculators w ranks_per_calculator loads split hook adopter).2

/-- The process after a sequence of calls. -/
def run (w : World) (es : List (Event Hook Adopter)) : Process Hook Adopter :=
  es.foldl (step w) {}

end Process

end Rgpot.Calculators
