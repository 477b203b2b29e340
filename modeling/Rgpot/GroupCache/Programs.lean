import Rgpot.Lib.RankState
import Rgpot.Cache.Potential
import Rgpot.Mpi.Comm

/-! The cache-aware entry points as every rank of a calculator runs them, with `ExprPot`s and
group-collective potentials. -/
namespace Rgpot.GroupCache
open Collective RankPart Cache Mpi

/-- A collective: one of MPI, or the force call of a group-collective potential, with the system of the
host's batch it is made for. -/
inductive Sig where
  | mpi (call : Mpi.Call)
  | force (id system : ℕ)

/-- What a collective gives every rank; `exchange` is what the collectives inside a force call make of
the ranks' contributions. -/
def value {n : ℕ} (exchange : ℕ → (Fin (n + 1) → Buffer) → Buffer) :
    Sig → (Fin (n + 1) → Buffer) → Buffer
  | .mpi call, v => call.value v
  | .force id _, v => exchange id v

/-- What a rank holds: the stores its potentials' caches are, and whether each write to come reaches its
database. -/
structure Rank where
  store : ℕ → PotentialCache
  kept : ℕ → Bool

abbrev Run (α : Type) := RankPart Sig Buffer Rank Exn α

/-- A system of a batch, with its place in the batch of the host. -/
abbrev Item := ℕ × System

/-- What the entry points read of a potential. -/
structure Base where
  type : PotType
  paramsKey : UInt64
  caps : PotCaps
  cache : Option ℕ

/-- The force calls of a potential of another class. -/
structure Kernel where
  forceImpl : ForceInput → ForceOut → Except Exn ForceOut
  forceBatchImpl : List System → Except Exn (List ForceOut)
  length_F : ∀ fi o r, forceImpl fi o = .ok r → r.F.length = 3 * fi.nAtoms
  length_batch : ∀ batch outs, forceBatchImpl batch = .ok outs →
    List.Forall₂ (fun s o => o.F.length = 3 * s.input.nAtoms) batch outs

/-- A force call that runs collectives on the calculator's communicator; an error inside it ends the
whole world, so it returns wherever a rank goes on. -/
structure CollectiveKernel where
  id : ℕ
  contribute : ForceInput → Buffer
  answer : ForceInput → ForceOut → Buffer → ForceOut
  length_F : ∀ fi o b, (answer fi o b).F.length = 3 * fi.nAtoms

/-- What an `ExprPot` makes of its children's results. -/
structure Composite where
  evaluate : ForceInput → List ForceOut → ForceOut → ForceOut
  length_F : ∀ fi outs o, (evaluate fi outs o).F.length = 3 * fi.nAtoms

inductive Pot where
  | leaf (type : PotType) (paramsKey : UInt64) (stress : Bool) (cache : Option ℕ) (kernel : Kernel)
  | collective (type : PotType) (paramsKey : UInt64) (stress : Bool) (cache : Option ℕ)
      (kernel : CollectiveKernel)
  | expr {n : ℕ} (paramsKey : UInt64) (cache : Option ℕ) (composite : Composite)
      (terms : Fin n → Pot)

/-- The capabilities of an `ExprPot` start from the defaults and take over only fields that no entry
point reads. -/
def Pot.base : Pot → Base
  | .leaf type paramsKey stress cache _ => ⟨type, paramsKey, { stress := stress }, cache⟩
  | .collective type paramsKey stress cache _ =>
    ⟨type, paramsKey, { groupCollective := true, stress := stress }, cache⟩
  | .expr paramsKey cache _ _ => ⟨.Expr, paramsKey, {}, cache⟩

/-- The flags in chunks an `int` can count, each combined in place. -/
def agreeChunks (flags : List UInt8) : Run (List UInt8) :=
  if _ : flags = [] then return []
  else do
    let chunk := min flags.length INT_MAX
    let got ← joint (.mpi ⟨.AllreduceLand, chunk, .UNSIGNED_CHAR⟩) (.bytes (flags.take chunk))
    let rest ← agreeChunks (flags.drop chunk)
    return got.toBytes ++ rest
  termination_by flags.length
  decreasing_by
    have hpos := List.length_pos_iff.mpr ‹¬ flags = []›
    simp only [List.length_drop, INT_MAX]
    omega

/-- `calculatorAgree` on a calculator of so many ranks; one rank alone leaves the flags untouched. -/
def calculatorAgree (ranks : ℕ) (flags : List UInt8) : Run (List UInt8) :=
  if ranks < 2 then return flags else agreeChunks flags

section EntryPoints
variable (H : List UInt8 → ℕ) (ranks : ℕ) (b : Base)

def Base.key (fi : ForceInput) : ℕ := cacheKey H ⟨b.type, b.paramsKey, fi⟩

/-- The lookup of `forceBatch`: a record without result metadata does not answer for a potential that
reports stress. -/
def Base.batchLookup (c : PotentialCache) (fi : ForceInput) : Option Record :=
  match c.find (b.key H fi) with
  | some hit => if b.caps.stress && !hasResultMetadata hit fi.nAtoms then none else some hit
  | none => none

/-- The joint decision of a group-collective potential: a hit that some rank does not have is dropped. -/
def Base.decideHits (hits : List (Option Record)) : Run (List (Option Record)) :=
  if b.caps.groupCollective then do
    let have' ← calculatorAgree ranks (hits.map fun hit => if hit.isSome then 1 else 0)
    return List.zipWith (fun hit flag => if flag ≠ 0 then hit else none) hits have'
  else return hits

/-- `add_serialized` into the cache `id`. -/
def Base.add (id : ℕ) (fi : ForceInput) (out : ForceOut) : Run Unit :=
  write fun s =>
    { store := Function.update s.store id
        ((s.store id).addSerialized (b.key H fi) out fi.nAtoms (s.kept 0))
      kept := fun k => s.kept (k + 1) }

/-- A served hit is in its result slot; a miss leaves the slot alone. -/
def serve (x : Item × Option Record) : Except Exn (Item × Option Record) := do
  let s ← serveHit (x.1.2, x.2)
  return ((x.1.1, s), x.2)

/-- The systems handed to the kernel. -/
def misses (batch : List (Item × Option Record)) : List Item :=
  batch.filterMap fun x => if x.2.isNone then some x.1 else none

/-- The results of the batch, with those of the kernel in the slots of the misses. -/
def scatter : List (Item × Option Record) → List ForceOut → List ForceOut
  | [], _ => []
  | (item, some _) :: rest, outs => item.2.out :: scatter rest outs
  | (_, none) :: rest, out :: outs => out :: scatter rest outs
  | (item, none) :: rest, [] => item.2.out :: scatter rest []

/-- `Potential::forceBatch` over the kernel of a derived class. -/
def Base.forceBatch (forceBatchImpl : List Item → Run (List ForceOut)) (batch : List Item) :
    Run (List ForceOut) :=
  if batch = [] then return []
  else
    let batch : List Item := batch.map fun x => (x.1, { x.2 with out := x.2.out.cleared })
    match b.cache with
    | none => forceBatchImpl batch
    | some id => do
      let hits ← read fun s => batch.map fun x => b.batchLookup H (s.store id) x.2.input
      let hits ← b.decideHits ranks hits
      let served ← compute ((batch.zip hits).mapM serve)
      if misses served = [] then return scatter served []
      else do
        let outs ← forceBatchImpl (misses served)
        let _ ← each (fun x : Item × ForceOut => b.add H id x.1.2.input x.2) ((misses served).zip outs)
        return scatter served outs

/-- `Potential::operator()` over the kernel of a derived class. -/
def Base.call (forceImpl : ForceInput → ForceOut → Run ForceOut) (fi : ForceInput) : Run Reply :=
  match b.cache with
  | none => do
    let out ← forceImpl fi (ForceOut.zero fi.nAtoms)
    return reply out
  | some id => do
    let hit ← read fun s => (s.store id).find (b.key H fi)
    let hits ← b.decideHits ranks [hit]
    match hits.head?.join with
    | some hit => do
      let out ← compute (deserializeHit hit fi.nAtoms)
      return reply out
    | none => do
      let out ← forceImpl fi (ForceOut.zero fi.nAtoms)
      let _ ← b.add H id fi out
      return reply out

/-- `forceBatchImpl`: one system at a time, unless the class brings its own. -/
def Pot.forceBatchImpl (p : Pot) (forceImpl : ℕ → ForceInput → ForceOut → Run ForceOut)
    (batch : List Item) : Run (List ForceOut) :=
  match p with
  | .leaf _ _ _ _ k => compute (k.forceBatchImpl (batch.map Prod.snd))
  | .collective .. | .expr .. => each (fun x : Item => forceImpl x.1 x.2.input x.2.out) batch

/-- `forceImpl` for a system of the host's batch. An `ExprPot` calls `forceBatch` of each child for this
one system. -/
def Pot.forceImpl : Pot → ℕ → ForceInput → ForceOut → Run ForceOut
  | .leaf _ _ _ _ k, _, fi, out => compute (k.forceImpl fi out)
  | .collective _ _ _ _ k, system, fi, out => do
    let got ← joint (.force k.id system) (k.contribute fi)
    return k.answer fi out got
  | .expr _ _ composite terms, system, fi, out => do
    let outs ← each (fun i => (terms i).base.forceBatch H ranks
      ((terms i).forceBatchImpl ((terms i).forceImpl)) [(system, ⟨fi, ForceOut.zero fi.nAtoms⟩)])
      (List.finRange _)
    return composite.evaluate fi outs.flatten out

/-- A call of the host. -/
inductive Action where
  | call (fi : ForceInput)
  | batch (systems : List System)

/-- The number of systems of a batch; none for `operator()`. -/
def Action.nSystems : Action → Option ℕ
  | .call _ => none
  | .batch systems => some systems.length

def Pot.perform (p : Pot) : Action → Run Unit
  | .call fi => do
    let _ ← p.base.call H ranks (p.forceImpl H ranks 0) fi
  | .batch systems => do
    let _ ← p.base.forceBatch H ranks (p.forceBatchImpl (p.forceImpl H ranks))
      (systems.zipIdx.map fun x => (x.2, x.1))

end EntryPoints

/-- A call all ranks make: on the same potential, through the same entry point, with the same number of
systems. -/
structure Entry (n : ℕ) where
  pot : Pot
  action : Fin (n + 1) → Action
  nSystems : Option ℕ
  same : ∀ r, (action r).nSystems = nSystems

/-- The host of a rank makes its calls one after another; what a call throws, the host catches. -/
def host {n : ℕ} (H : List UInt8 → ℕ) (r : Fin (n + 1)) :
    List (Entry n) → Rank → Prog Sig Buffer Rank
  | [], s => .ret s
  | entry :: rest, s =>
    entry.pot.perform H (n + 1) (entry.action r) s >>= fun p => host H r rest p.2

end Rgpot.GroupCache
