import Rgpot.Mpi.Host

/-! `MpiPefSession`: the root sends each request to the workers, and all ranks serve it together. -/
namespace Rgpot.Mpi
open Collective Words

/-- What a force call gets. -/
structure Geometry where
  coordinates : List Double
  numbers : List UInt32
  cell : List Double
  deriving DecidableEq

/-- How the functions of one request end on one rank: the allocations of its payloads, the check of
the geometry, the force call, the reader of a configuration, the answer to an arm without parameters of
the potential's own, and the two parts of a configuration, before and after the parameters are stored. -/
structure Bodies (Result : Type) where
  allocation : ℕ → Option Failure := fun _ => none
  available : Bool := true
  emplace : Option Failure := none
  force : Geometry → Except Failure Result
  reader : Option Failure := none
  answer : Option Failure := none
  serialize : Option Failure := none
  engine : Except Failure (Bool × Text) := .ok (true, [])

/-- The arms of a `PotentialConfig` message for a potential of one class. -/
inductive Arm where
  | none
  | own (params : List UInt64)
  | other

/-- The class of the potential: how it reads a message, and its answer to an arm it does not know. -/
structure Backend where
  read : List UInt64 → Except Failure Arm
  unhandled : Text

/-- What a function returns on a rank where it does not throw. -/
def unlessThrown {α : Type} (failure : Option Failure) (x : α) : Except Failure α :=
  match failure with
  | some e => .error e
  | none => .ok x

/-- The arm of a message as one rank reads it. -/
def readArm {Result : Type} (k : Backend) (b : Bodies Result) (words : List UInt64) : Except Failure Arm :=
  unlessThrown b.reader () >>= fun _ => k.read words

/-- `setPotentialConfig` of a potential with the parameters `stored`: what is stored afterwards, and
whether the configuration is accepted, with the message. -/
def setPotentialConfig {Result : Type} (k : Backend) (b : Bodies Result)
    (stored words : List UInt64) : List UInt64 × Except Failure (Bool × Text) :=
  match readArm k b words with
  | .error e => (stored, .error e)
  | .ok .none => (stored, unlessThrown b.answer (true, "no-op (rgpot params: none)".toList))
  | .ok .other => (stored, unlessThrown b.answer (false, k.unhandled))
  | .ok (.own params) =>
    match b.serialize with
    | some e => (stored, .error e)
    -- from here the words are stored, whatever the engine says
    | none => (params, b.engine)

/-- The function of `configureReceived`: a rejection is an exception. -/
def accept : Except Failure (Bool × Text) → Except Failure Text
  | .error e => .error e
  | .ok (true, response) => .ok response
  | .ok (false, response) =>
    .error (.exception (if response = [] then
      "engine rejected collective configuration".toList else response))

/-- The first function of `calculateReceived`. -/
def prepare {Result : Type} (g : Geometry) (b : Bodies Result) : Except Failure Unit :=
  if g.numbers = [] ∨ g.numbers.length > INT_MAX / 3 ∨
      g.coordinates.length ≠ g.numbers.length * 3 ∨ g.cell.length ≠ 9 then
    .error (.exception "invalid collective force geometry".toList)
  else if ¬ b.available then .error (.exception "collective engine is unavailable".toList)
  else
    match b.emplace with
    | some e => .error e
    | none => .ok ()

inductive Reply (Result : Type) where
  | result (x : Result)
  | response (text : Text)

/-- A session on one rank: the parameters its potential holds, and the outcome of each request. -/
structure Session (Result : Type) where
  stored : List UInt64
  outcomes : List (Except Text (Reply Result)) := []
  stopped : Bool := false

inductive Command where
  | Stop
  | Calculate
  | Configure
  deriving DecidableEq

def Command.code : Command → ℤ
  | Stop => 0
  | Calculate => 1
  | Configure => 2

/-- `AtomMatrix`: `data` is row-major. -/
structure AtomMatrix where
  rows : ℕ
  cols : ℕ
  data : List Double

inductive Request where
  | calculate (positions : AtomMatrix) (numbers : List UInt32) (box : Fin 9 → Double)
  | configure (words : List UInt64)

/-- The root checks a request before any other rank hears of it. -/
def Request.Valid : Request → Prop
  | calculate positions numbers _ => positions.cols = 3 ∧ positions.rows = numbers.length
  | configure _ => True

instance Request.decidableValid : (q : Request) → Decidable q.Valid
  | calculate _ _ _ => inferInstanceAs (Decidable (_ ∧ _))
  | configure _ => .isTrue trivial

variable {n : ℕ} {Result : Type}

def broadcastCommand (command : ℤ) : Prog Call Buffer ℤ :=
  .call ⟨.Bcast 0, 1, .INT⟩ (.ints [command]) fun x => .ret x.toInt

def calculateReceived (r : Fin (n + 1)) (b : Bodies Result) (g : Geometry) : Host Result := do
  let coordinates ← broadcast r (b.allocation 0) g.coordinates
  let numbers ← broadcast r (b.allocation 1) g.numbers
  let cell ← broadcast r (b.allocation 2) g.cell
  let g : Geometry := ⟨coordinates, numbers, cell⟩
  collective r (prepare g b)
  collective r (b.force g)

def configureReceived (k : Backend) (r : Fin (n + 1)) (b : Bodies Result)
    (stored words : List UInt64) : Prog Call Buffer (List UInt64 × Except Text Text) := do
  match ← broadcast r (b.allocation 0) words with
  | .error e => return (stored, .error e)
  | .ok words =>
    let (stored, outcome) := setPotentialConfig k b stored words
    let response ← collective r (accept outcome)
    return (stored, response)

/-- One request on one rank, once the command is known. -/
def serveCalculate (r : Fin (n + 1)) (b : Bodies Result) (g : Geometry) (s : Session Result) :
    Prog Call Buffer (Session Result) := do
  let outcome ← calculateReceived r b g
  return { s with outcomes := s.outcomes ++ [outcome.map .result] }

def serveConfigure (k : Backend) (r : Fin (n + 1)) (b : Bodies Result) (words : List UInt64)
    (s : Session Result) : Prog Call Buffer (Session Result) := do
  let (stored, outcome) ← configureReceived k r b s.stored words
  return { s with stored := stored, outcomes := s.outcomes ++ [outcome.map .response] }

/-- The root: its requests, and the stop its destructor sends. An invalid request throws in the
caller before the command. `i` counts the requests sent. -/
def root (k : Backend) (r : Fin (n + 1)) (b : ℕ → Bodies Result) :
    List Request → ℕ → Session Result → Prog Call Buffer (Session Result)
  | [], _, s => do
    let _ ← broadcastCommand Command.Stop.code
    return { s with stopped := true }
  | .calculate positions numbers box :: rest, i, s =>
    if positions.cols ≠ 3 ∨ positions.rows ≠ numbers.length then root k r b rest i s
    else do
      let coordinates := positions.data.take (positions.rows * 3)
      let _ ← broadcastCommand Command.Calculate.code
      let s ← serveCalculate r (b i) ⟨coordinates, numbers, List.ofFn box⟩ s
      root k r b rest (i + 1) s
  | .configure words :: rest, i, s => do
    let _ ← broadcastCommand Command.Configure.code
    let s ← serveConfigure k r (b i) words s
    root k r b rest (i + 1) s

/-- What a worker does with a command, and `again` for the next. -/
def obey (k : Backend) (r : Fin (n + 1)) (b : Bodies Result) (s : Session Result)
    (again : Session Result → Prog Call Buffer (Session Result)) (command : ℤ) :
    Prog Call Buffer (Session Result) :=
  if command = Command.Stop.code then return { s with stopped := true }
  else if command = Command.Calculate.code then serveCalculate r b ⟨[], [], []⟩ s >>= again
  else if command = Command.Configure.code then serveConfigure k r b [] s >>= again
  -- `MPI_Abort`
  else return s

/-- `work`, for at most `fuel` commands. -/
def work (k : Backend) (r : Fin (n + 1)) (b : ℕ → Bodies Result) :
    ℕ → ℕ → Session Result → Prog Call Buffer (Session Result)
  | 0, _, s => return s
  | fuel + 1, i, s => do
    let command ← broadcastCommand Command.Stop.code
    obey k r (b i) s (work k r b fuel (i + 1)) command

/-- All ranks of a session: rank 0 sends, the others work. -/
def ranks (k : Backend) (b : Fin (n + 1) → ℕ → Bodies Result) (requests : List Request)
    (fuel i : ℕ) (s : Fin (n + 1) → Session Result) :
    Fin (n + 1) → Prog Call Buffer (Session Result) := fun r =>
  if r = 0 then root k r (b r) requests i (s r) else work k r (b r) fuel i (s r)

/-- The outcome of a calculation on rank `r`: at the first point where a rank fails, the error of the
lowest rank that does. -/
def calculateOutcome (b : Fin (n + 1) → Bodies Result) (g : Geometry) (r : Fin (n + 1)) :
    Except Text Result := do
  agreed (fun q => resize Double g.coordinates.length ((b q).allocation 0)) r
  agreed (fun q => resize UInt32 g.numbers.length ((b q).allocation 1)) r
  agreed (fun q => resize Double g.cell.length ((b q).allocation 2)) r
  agreed (fun q => prepare g (b q)) r
  agreed (fun q => (b q).force g) r

/-- The outcome of a configuration on rank `r`, and what its potential holds then. -/
def configureOutcome (k : Backend) (b : Fin (n + 1) → Bodies Result) (words : List UInt64)
    (stored : Fin (n + 1) → List UInt64) (r : Fin (n + 1)) : List UInt64 × Except Text Text :=
  match agreed (fun q => resize UInt64 words.length ((b q).allocation 0)) r with
  | .error e => (stored r, .error e)
  | .ok _ => ((setPotentialConfig k (b r) (stored r) words).1,
      agreed (fun q => accept (setPotentialConfig k (b q) (stored q) words).2) r)

/-- What a request that is sent leaves on every rank. -/
def served (k : Backend) (b : Fin (n + 1) → Bodies Result) (s : Fin (n + 1) → Session Result) :
    Request → Fin (n + 1) → Session Result
  | .calculate positions numbers box, r =>
    let g : Geometry := ⟨positions.data.take (positions.rows * 3), numbers, List.ofFn box⟩
    { s r with outcomes := (s r).outcomes ++ [(calculateOutcome b g r).map .result] }
  | .configure words, r =>
    let (stored, outcome) := configureOutcome k b words (fun q => (s q).stored) r
    { s r with stored := stored, outcomes := (s r).outcomes ++ [outcome.map .response] }

/-- The ranks after requests, of which the `i`-th is the first of the list. -/
def afterRequests (k : Backend) (b : Fin (n + 1) → ℕ → Bodies Result) :
    List Request → ℕ → (Fin (n + 1) → Session Result) → Fin (n + 1) → Session Result
  | [], _, s => s
  | q :: rest, i, s =>
    if q.Valid then afterRequests k b rest (i + 1) (served k (fun r => b r i) s q)
    else afterRequests k b rest i s

end Rgpot.Mpi
