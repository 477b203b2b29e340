import Rgpot.Cache.Key
import Rgpot.Cache.Record
import Rgpot.Lib.Fallible

/-! The two cache-aware entry points, `Potential::operator()` and `Potential::forceBatch`. -/
namespace Rgpot.Cache
open Fallible

/-- The capabilities the entry points read. -/
structure PotCaps where
  groupCollective : Bool := false
  stress : Bool := false
  deriving DecidableEq

/-- `batch.in[i]` with `batch.out[i]`. -/
structure System where
  input : ForceInput
  out : ForceOut

structure Potential where
  type : PotType
  paramsKey : UInt64
  caps : PotCaps
  forceImpl : ForceInput → ForceOut → Except Exn ForceOut
  forceBatchImpl : List System → Except Exn (List ForceOut)

/-- The default `forceBatchImpl`: one system at a time. -/
def forceLoop (forceImpl : ForceInput → ForceOut → Except Exn ForceOut) (batch : List System) :
    Except Exn (List ForceOut) :=
  batch.mapM fun s => forceImpl s.input s.out

/-- What one call meets outside its own rank and process: the other ranks' answer on each flag of
the joint decision, and whether each write reaches the database. -/
structure Env where
  others : ℕ → Bool
  kept : ℕ → Bool

/-- The tuple `operator()` returns. -/
structure Reply where
  energy : Double
  forces : List Double
  variance : Double
  deriving DecidableEq

def reply (o : ForceOut) : Reply := ⟨o.energy, o.F, o.variance⟩

/-- How a call ends: what it returns or throws, the cache it leaves, and the systems its kernel
was handed, in order. -/
structure Outcome (α : Type) where
  result : Except Exn α
  cache : Option PotentialCache
  received : List ForceInput

/-- Logical AND of the flags with those of the other ranks. -/
def calculatorAgree (others : ℕ → Bool) (flags : List Bool) : List Bool :=
  flags.mapIdx fun i flag => flag && others i

/-- Drops each hit that some rank does not have. -/
def keepAgreed (hits : List (Option Record)) (have' : List Bool) : List (Option Record) :=
  List.zipWith (fun hit flag => if flag then hit else none) hits have'

/-- Serves a hit into its result slot; a miss leaves the slot alone. -/
def serveHit : System × Option Record → Except Exn System
  | (s, some hit) => do
    let out ← deserializeHit hit s.input.nAtoms
    return { s with out := out }
  | (s, none) => return s

/-- The indices pushed to `misses`, counting from `k`. -/
def missIndices (hits : List (Option Record)) (k : ℕ) : List ℕ :=
  (hits.zipIdx k).filterMap fun (hit, i) => if hit.isNone then some i else none

/-- `missIn` with `missOut`. -/
def compactMisses (batch : List System) (misses : List ℕ) : List System :=
  misses.filterMap fun idx => batch[idx]?

/-- The copy of `missOut[j]` into `batch.out[idx]`; the force pointers are the same. -/
def copyBack (m : ForceOut) (s : System) : System :=
  { s with
    out :=
      { s.out with
        F := m.F
        energy := m.energy
        variance := m.variance
        hasStress := m.hasStress
        stress := m.stress } }

namespace Potential
variable (p : Potential) (H : List UInt8 → ℕ)

def key (fi : ForceInput) : ℕ := cacheKey H ⟨p.type, p.paramsKey, fi⟩

/-- The decision per system: the lookups, joined over the calculator's ranks when its force call
is collective. -/
def decideHits (env : Env) (hits : List (Option Record)) : List (Option Record) :=
  if p.caps.groupCollective then
    keepAgreed hits (calculatorAgree env.others (hits.map Option.isSome))
  else hits

/-- The lookup of one system in `forceBatch`: a record without result metadata does not answer
for a potential that reports stress. -/
def batchLookup (c : PotentialCache) (fi : ForceInput) : Option Record :=
  match c.find (p.key H fi) with
  | some hit => if p.caps.stress && !hasResultMetadata hit fi.nAtoms then none else some hit
  | none => none

/-- The loop over the misses after the kernel: results into their slots, records into the cache. -/
def writeBack (env : Env) :
    List (ℕ × ForceOut) → ℕ → List System → PotentialCache → List System × PotentialCache
  | [], _, batch, c => (batch, c)
  | (idx, m) :: rest, j, batch, c =>
    let batch := batch.modify idx (copyBack m)
    let c :=
      match batch[idx]? with
      | some s => c.addSerialized (p.key H s.input) s.out s.input.nAtoms (env.kept j)
      | none => c
    writeBack env rest (j + 1) batch c

/-- `forceBatch` once every hit or miss is decided. -/
def finishBatch (env : Env) (c : PotentialCache) (batch : List System)
    (hits : List (Option Record)) : Outcome (List ForceOut) :=
  match (batch.zip hits).mapM serveHit with
  | .error e => ⟨.error e, some c, []⟩
  | .ok batch =>
    let misses := missIndices hits 0
    if misses = [] then ⟨.ok (batch.map System.out), some c, []⟩
    else
      let missBatch := compactMisses batch misses
      match p.forceBatchImpl missBatch with
      | .error e => ⟨.error e, some c, missBatch.map System.input⟩
      | .ok missOut =>
        let (batch, c) := p.writeBack H env (misses.zip missOut) 0 batch c
        ⟨.ok (batch.map System.out), some c, missBatch.map System.input⟩

def forceBatch (cache : Option PotentialCache) (env : Env) (batch : List System) :
    Outcome (List ForceOut) :=
  if batch = [] then ⟨.ok [], cache, []⟩
  else
    let batch := batch.map fun s => { s with out := s.out.cleared }
    match cache with
    | none => ⟨p.forceBatchImpl batch, none, batch.map System.input⟩
    | some c =>
      let hits := p.decideHits env (batch.map fun s => p.batchLookup H c s.input)
      p.finishBatch H env c batch hits

/-- `operator()` once its hit or miss is decided. -/
def finishCall (env : Env) (c : PotentialCache) (fi : ForceInput) (hit : Option Record) :
    Outcome Reply :=
  match hit with
  | some hit => ⟨(deserializeHit hit fi.nAtoms).map reply, some c, []⟩
  | none =>
    match p.forceImpl fi (ForceOut.zero fi.nAtoms) with
    | .error e => ⟨.error e, some c, [fi]⟩
    | .ok out =>
      ⟨.ok (reply out), some (c.addSerialized (p.key H fi) out fi.nAtoms (env.kept 0)), [fi]⟩

/-- `Potential::operator()`. -/
def call (cache : Option PotentialCache) (env : Env) (fi : ForceInput) : Outcome Reply :=
  match cache with
  | none => ⟨(p.forceImpl fi (ForceOut.zero fi.nAtoms)).map reply, none, [fi]⟩
  | some c =>
    let hits := p.decideHits env [c.find (p.key H fi)]
    p.finishCall H env c fi hits.head?.join

end Potential

/-- A potential whose results depend on the system alone. The kernel may leave the fields both
entry points reset untouched, it writes `3 * nAtoms` forces and a flag of 0 or 1, and a native
batch evaluation treats its systems as independent. -/
structure PurePotential extends Potential where
  forceImpl_congr : ∀ fi o o', o.variance = o'.variance → o.hasStress = o'.hasStress →
    o.stress = o'.stress → forceImpl fi o = forceImpl fi o'
  length_F : ∀ {fi o r}, forceImpl fi o = .ok r → r.F.length = 3 * fi.nAtoms
  flag : ∀ {fi o r}, forceImpl fi o = .ok r → o.hasStress = 0 → r.hasStress = 0 ∨ r.hasStress = 1
  forceBatchImpl_eq_ok : ∀ {batch outs},
    forceBatchImpl batch = .ok outs ↔ forceLoop forceImpl batch = .ok outs

/-- What `forceImpl` gives for a system without a cache. -/
def PurePotential.eval (p : PurePotential) (fi : ForceInput) : Except Exn ForceOut :=
  p.forceImpl fi (ForceOut.zero fi.nAtoms)

end Rgpot.Cache
