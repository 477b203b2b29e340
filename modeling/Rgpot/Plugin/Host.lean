import Rgpot.Lib.SharedHandles
import Rgpot.Plugin.Bridge

/-! `PluginRegistry` with the potentials made from its descriptors, in any order of calls on any number of
threads: which libraries are mapped, and where calls into them go. -/
namespace Rgpot.Plugin
open SharedHandles Rgpot.Units

/-- The control block of a `library` pointer. -/
structure Block (L : Type) where
  address : ℕ
  library : L
  deriving DecidableEq

/-- A pointer to a descriptor: one that the host registers itself, or the one of a library. -/
inductive Source (L : Type) where
  | builtin (n : ℕ)
  | plugin (library : L)
  deriving DecidableEq

/-- The library that a descriptor lies in. -/
def Source.library {L : Type} : Source L → Option L
  | .builtin _ => none
  | .plugin library => some library

/-- What the host meets: the libraries that paths lead to, their `rgpot_plugin_init` where they have one, and
the descriptors of the host. -/
structure World (L K I : Type) where
  dlopen : String → Option L
  init : L → Option (Except Exn (Option (Descriptor K I)))
  builtin : ℕ → Option (Descriptor K I)

/-- A call of `load_plugin` past `dlopen`. -/
inductive Stage where
  | opened
  | checked (name : Text)
  | finished (registered : Bool)

structure LoadCall (L : Type) where
  block : Block L
  path : String
  stage : Stage

structure LoadedPlugin (L : Type) where
  desc : Source L
  name : Text
  path : String
  library : Option (Block L)

/-- A call of `create_from_plugin`, or the potential it has made. -/
structure Client (L : Type) where
  desc : Source L
  library : Option (Block L)

/-- `dangling` has the libraries that were called when they were not mapped. -/
structure Host (L : Type) where
  shares : Shares (Block L) L
  fresh : ℕ
  loading : List (LoadCall L)
  plugins : List (LoadedPlugin L)
  creating : List (Client L)
  pots : List (Client L)
  cerr : List String
  dangling : List L
  exited : Bool

/-- One step of one call; a number is the place of a call or of a potential in its list. -/
inductive Event where
  | open (path : String)
  | init (i : ℕ)
  | register (i : ℕ)
  | finish (i : ℕ)
  | register_builtin (n : ℕ)
  | create (name : Text)
  | created (i : ℕ) (ok : Bool)
  | calculate (i : ℕ)
  | destroy (i : ℕ)
  | exit

/-- `what()`. -/
def what : Exn → String
  | .invalidArgument what | .overflowError what | .runtimeError what => what

variable {L K I : Type} [DecidableEq L]

/-- A copy of a `library` pointer. -/
def copied (shares : Shares (Block L) L) : Option (Block L) → Shares (Block L) L
  | none => shares
  | some b => shares.share b

/-- A `library` pointer goes. -/
def dropped (shares : Shares (Block L) L) : Option (Block L) → Shares (Block L) L
  | none => shares
  | some b => shares.release Block.library b

namespace Host
variable (s : Host L)

/-- A call of a function of a descriptor. -/
def call (desc : Source L) : Host L :=
  match desc with
  | .builtin _ => s
  | .plugin library => if s.shares.refs library = 0 then { s with dangling := library :: s.dangling } else s

def share (library : Option (Block L)) : Host L := { s with shares := copied s.shares library }

def release (library : Option (Block L)) : Host L := { s with shares := dropped s.shares library }

def find (name : Text) : Option (LoadedPlugin L) := s.plugins.find? fun p => p.name = name

def list_plugins : List Text := s.plugins.map LoadedPlugin.name

def retain_library (desc : Source L) : Option (Block L) :=
  (s.plugins.find? fun p => p.desc = desc).bind LoadedPlugin.library

end Host

section Steps
variable (w : World L K I) (s : Host L)

/-- `dynlib::open`, with the control block of the handle. -/
def openLibrary (path : String) : Host L :=
  match w.dlopen path with
  | none => s
  | some library =>
    let block : Block L := ⟨s.fresh, library⟩
    { s with
      shares := s.shares.adopt Block.library block
      fresh := s.fresh + 1
      loading := ⟨block, path, .opened⟩ :: s.loading }

/-- `rgpot_plugin_init` and the checks of its descriptor. -/
def initLibrary (i : ℕ) : Option (Host L) :=
  match s.loading[i]? with
  | some ⟨block, path, .opened⟩ =>
    let settle (stage : Stage) (s : Host L) : Host L := { s with loading := s.loading.set i ⟨block, path, stage⟩ }
    match w.init block.library with
    | none => some (settle (.finished false) s)
    | some init =>
      let s := s.call (.plugin block.library)
      match init.bind checkedDescriptor with
      | .error e =>
        some (settle (.finished false)
          { s with cerr := s.cerr ++ ["[rgpot] invalid plugin " ++ path ++ ": " ++ what e] })
      | .ok descriptor => some (settle (.checked descriptor.name) s)
  | _ => none

/-- Under the lock. -/
def registerLibrary (i : ℕ) : Option (Host L) :=
  match s.loading[i]? with
  | some ⟨block, path, .checked name⟩ =>
    let settle (registered : Bool) (s : Host L) : Host L :=
      { s with loading := s.loading.set i ⟨block, path, .finished registered⟩ }
    if name ∈ s.list_plugins then some (settle false s)
    else some (settle true
      { s.share (some block) with
        plugins := s.plugins ++ [⟨.plugin block.library, name, path, some block⟩] })
  | _ => none

/-- The pointer of the call goes. -/
def finishLoad (i : ℕ) : Option (Host L) :=
  match s.loading[i]? with
  | some ⟨block, _, .finished _⟩ => some { s.release (some block) with loading := s.loading.eraseIdx i }
  | _ => none

/-- A name that is taken is an exception and no step. -/
def register_builtin (n : ℕ) : Option (Host L) :=
  match checkedDescriptor (w.builtin n) with
  | .error _ => none
  | .ok descriptor =>
    if descriptor.name ∈ s.list_plugins then none
    else some { s with plugins := s.plugins ++ [⟨.builtin n, descriptor.name, "", none⟩] }

/-- `create_from_plugin` of a descriptor that was found, up to the call of its `create`. -/
def startCreate (name : Text) : Option (Host L) :=
  match s.find name with
  | none => none
  | some plugin =>
    let library := s.retain_library plugin.desc
    some { s.share library with creating := ⟨plugin.desc, library⟩ :: s.creating }

/-- `create`, and `destroy`, `last_error` or `capabilities` after it; a potential takes the library over. -/
def finishCreate (i : ℕ) (ok : Bool) : Option (Host L) :=
  match s.creating[i]? with
  | none => none
  | some client =>
    let s := s.call client.desc
    let creating := s.creating.eraseIdx i
    if ok then some { s with creating, pots := client :: s.pots }
    else some { s.release client.library with creating }

def calculate (i : ℕ) : Option (Host L) := s.pots[i]?.map fun pot => s.call pot.desc

/-- The instance is destroyed before the library goes. -/
def destroyPot (i : ℕ) : Option (Host L) :=
  match s.pots[i]? with
  | none => none
  | some pot =>
    let s := s.call pot.desc
    some { s.release pot.library with pots := s.pots.eraseIdx i }

/-- The registry is destroyed with the program's other statics, when no call is under way. -/
def exitProgram : Option (Host L) :=
  if s.loading.isEmpty && s.creating.isEmpty then
    let shares := (s.plugins.map LoadedPlugin.library).foldl dropped s.shares
    some { s with shares, plugins := [], exited := true }
  else none

def step (e : Event) : Option (Host L) :=
  match e with
  | .calculate i => calculate s i
  | .destroy i => destroyPot s i
  | e =>
    if s.exited then none
    else
      match e with
      | .open path => some (openLibrary w s path)
      | .init i => initLibrary w s i
      | .register i => registerLibrary s i
      | .finish i => finishLoad s i
      | .register_builtin n => register_builtin w s n
      | .create name => startCreate s name
      | .created i ok => finishCreate s i ok
      | .exit => exitProgram s
      | .calculate _ | .destroy _ => none

def run (s : Host L) : List Event → Option (Host L)
  | [] => some s
  | e :: es => (step w s e).bind fun t => run t es

/-- Before the registry's constructor registers the first descriptor. -/
def emptyHost : Host L := ⟨⟨fun _ => 0, fun _ => 0⟩, 0, [], [], [], [], [], [], false⟩

end Steps

end Rgpot.Plugin
