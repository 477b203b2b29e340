import Rgpot.Lib.Component

/-! `ProfileLoader`: the thirteen symbols of a backend, resolved from the first candidate library that
opens. -/
namespace Rgpot.Abi
open Component

/-- What a load finds: the environment, and what `dlopen` answers, the message of `dlerror` where it
fails. -/
structure Host (H : Type) where
  getenv : String → Option String
  dlopen : String → Except (Option String) H

/-- A library handle, null without a library. -/
structure DynLib (H : Type) where
  handle : Option H := none

namespace DynLib
variable {H A : Type}

def valid (lib : DynLib H) : Bool := lib.handle.isSome

def close (_ : DynLib H) : DynLib H := ⟨none⟩

/-- `DynLib::open`; the library that was open is closed in any case. -/
def openPath (lib : DynLib H) (host : Host H) (path : String) : Except String Unit × DynLib H :=
  let lib := lib.close
  match host.dlopen path with
  | .ok h => (.ok (), ⟨some h⟩)
  | .error err => (.error ("dlopen failed: " ++ path ++ ": " ++ err.getD "unknown"), lib)

/-- The address under which `dlsym` finds a symbol. -/
def sym_optional (dlsym : H → String → Option A) (lib : DynLib H) (name : String) : Option A :=
  lib.handle.bind fun h => dlsym h name

end DynLib

/-- The function pointers of a loader. -/
structure Profile (A : Type) where
  abi_version : Option A := none
  version : Option A := none
  last_error : Option A := none
  available : Option A := none
  finalize : Option A := none
  configure : Option A := none
  session_create_from_config : Option A := none
  session_configure : Option A := none
  session_destroy : Option A := none
  session_calculate_result : Option A := none
  calculate_result_from_config : Option A := none
  potential_result_size_for_force_input : Option A := none
  capabilities_result : Option A := none

/-- The names without their prefix, in the order of the members. -/
def names : List String :=
  ["abi_version", "version", "last_error", "available", "finalize", "configure",
    "session_create_from_config", "session_configure", "session_destroy", "session_calculate_result",
    "calculate_result_from_config", "potential_result_size_for_force_input", "capabilities_result"]

def Profile.pointers {A : Type} (p : Profile A) : List (Option A) :=
  [p.abi_version, p.version, p.last_error, p.available, p.finalize, p.configure,
    p.session_create_from_config, p.session_configure, p.session_destroy, p.session_calculate_result,
    p.calculate_result_from_config, p.potential_result_size_for_force_input, p.capabilities_result]

structure ProfileLoader (H A : Type) where
  lib_ : DynLib H := {}
  prefix_ : String := ""
  profile : Profile A := {}

section Resolve
variable {A : Type} (sym_optional : String → Option A) (prefix_ : String)

/-- A symbol that is not found is noted. -/
def resolve (name : String) : StateM (List String) (Option A) := do
  let sym := prefix_ ++ "_" ++ name
  let fn := sym_optional sym
  if fn.isNone then
    modify (· ++ [sym])
  return fn

def resolveProfile : StateM (List String) (Profile A) := do
  return {
    abi_version := ← resolve sym_optional prefix_ "abi_version"
    version := ← resolve sym_optional prefix_ "version"
    last_error := ← resolve sym_optional prefix_ "last_error"
    available := ← resolve sym_optional prefix_ "available"
    finalize := ← resolve sym_optional prefix_ "finalize"
    configure := ← resolve sym_optional prefix_ "configure"
    session_create_from_config := ← resolve sym_optional prefix_ "session_create_from_config"
    session_configure := ← resolve sym_optional prefix_ "session_configure"
    session_destroy := ← resolve sym_optional prefix_ "session_destroy"
    session_calculate_result := ← resolve sym_optional prefix_ "session_calculate_result"
    calculate_result_from_config := ← resolve sym_optional prefix_ "calculate_result_from_config"
    potential_result_size_for_force_input :=
      ← resolve sym_optional prefix_ "potential_result_size_for_force_input"
    capabilities_result := ← resolve sym_optional prefix_ "capabilities_result" }

/-- Those of the symbols that are not found. -/
def unresolved (syms : List String) : List String := syms.filter fun sym => (sym_optional sym).isNone

/-- The symbols of a backend, in the order of the members. -/
def symbols : List String := names.map fun name => prefix_ ++ "_" ++ name

/-- After the symbols `tried`. -/
theorem resolve_run (name : String) (tried : List String) :
    (resolve sym_optional prefix_ name).run (unresolved sym_optional tried) =
      pure (sym_optional (prefix_ ++ "_" ++ name),
        unresolved sym_optional (tried ++ [prefix_ ++ "_" ++ name])) := by
  unfold unresolved
  cases h : sym_optional (prefix_ ++ "_" ++ name) with
  | none =>
    simp [resolve, h]
  | some fn =>
    simp [resolve, h]

/-- All members are written, whatever is missing. -/
theorem resolveProfile_run :
    ((resolveProfile sym_optional prefix_).run []).1.pointers = (symbols prefix_).map sym_optional ∧
      ((resolveProfile sym_optional prefix_).run []).2 = unresolved sym_optional (symbols prefix_) := by
  have hnone : ([] : List String) = unresolved sym_optional [] := rfl
  rw [hnone]
  simp only [resolveProfile, StateT.run_bind, resolve_run, pure_bind]
  exact ⟨rfl, rfl⟩

end Resolve

/-- The arguments of a load, and the host at the time of the call. -/
structure LoadRequest (H : Type) where
  host : Host H
  prefix_ : String
  explicit_path : String := ""

/-- The candidate paths: the explicit one, those of the environment, the default names. -/
def candidates {H : Type} (r : LoadRequest H) : List String :=
  let upper := r.prefix_.map Char.toUpper
  (if r.explicit_path ≠ "" then [r.explicit_path] else []) ++
    [upper ++ "_LIBRARY", "RGPOT_" ++ upper ++ "_ENGINE"].filterMap r.host.getenv ++
    ["lib" ++ r.prefix_ ++ ".so", "./lib" ++ r.prefix_ ++ ".so", "lib" ++ r.prefix_ ++ ".dylib",
      "./lib" ++ r.prefix_ ++ ".dylib", r.prefix_ ++ ".dll"]

/-- The loop over the candidates, with the message of the last one that did not open. -/
def openFirst {H : Type} (host : Host H) : List String → DynLib H → String → Except String Unit × DynLib H
  | [], lib, open_error => (.error open_error, lib)
  | cand :: rest, lib, _ =>
    match lib.openPath host cand with
    | (.ok (), lib) => (.ok (), lib)
    | (.error what, lib) => openFirst host rest lib what

section Load
variable {H A : Type} (dlsym : H → String → Option A)

namespace ProfileLoader

/-- `load`, whether it returns or throws, and the loader it leaves. -/
def load (loader : ProfileLoader H A) (r : LoadRequest H) : Except String Unit × ProfileLoader H A :=
  match openFirst r.host (candidates r) loader.lib_ "" with
  | (.error open_error, lib) =>
    (.error ("lib" ++ r.prefix_ ++ " not loaded: " ++ open_error),
      { loader with lib_ := lib, prefix_ := r.prefix_ })
  | (.ok (), lib) =>
    let (profile, missing) := (resolveProfile (lib.sym_optional dlsym) r.prefix_).run []
    let loader : ProfileLoader H A := ⟨lib, r.prefix_, profile⟩
    if missing ≠ [] then
      (.error (missing.foldl (fun what sym => what ++ " " ++ sym)
        ("lib" ++ r.prefix_ ++ " does not conform to the minimum potential ABI profile; missing:")), loader)
    else (.ok (), loader)

def loaded (loader : ProfileLoader H A) : Bool :=
  loader.lib_.valid && loader.profile.capabilities_result.isSome

end ProfileLoader

/-- A loader between loads. -/
def loader : Component (ProfileLoader H A) (LoadRequest H) (fun _ => Unit) String where
  fresh := {}
  call l r := l.load dlsym r

/-- The library a load opens: the first candidate that can be. -/
def opened (r : LoadRequest H) : Option H :=
  (candidates r).findSome? fun cand => (r.host.dlopen cand).toOption

/-- After a load the loader counts as loaded exactly where the load returned, and then has all pointers of
the library it opened. -/
structure AllOrNothing (r : LoadRequest H) (x : Except String Unit × ProfileLoader H A) : Prop where
  loaded_iff : x.2.loaded = true ↔ x.1 = .ok ()
  pointers : x.2.loaded = true → ∃ h, opened r = some h ∧ x.2.lib_.handle = some h ∧
    x.2.profile.pointers = (symbols r.prefix_).map (dlsym h) ∧
    ∀ fn ∈ x.2.profile.pointers, fn.isSome

/-- The library that is opened has the whole profile, or not the last symbol of it. -/
def Loads (r : LoadRequest H) : Prop :=
  ∀ h, opened r = some h → (∀ sym ∈ symbols r.prefix_, (dlsym h sym).isSome) ∨
    dlsym h (r.prefix_ ++ "_" ++ "capabilities_result") = none

variable {r : LoadRequest H}

/-- Where no candidate opens, no library stays open. -/
theorem openFirst_eq (host : Host H) (cands : List String) (lib : DynLib H) (open_error : String) :
    match cands.findSome? fun cand => (host.dlopen cand).toOption with
    | some h => openFirst host cands lib open_error = (.ok (), ⟨some h⟩)
    | none => (cands = [] → lib.handle = none) →
      ∃ what, openFirst host cands lib open_error = (.error what, ⟨none⟩) := by
  induction cands generalizing lib open_error with
  | nil =>
    intro hclosed
    obtain ⟨handle⟩ := lib
    cases hclosed rfl
    exact ⟨open_error, rfl⟩
  | cons cand rest ih =>
    cases hopen : host.dlopen cand with
    | ok h =>
      have hfirst : (cand :: rest).findSome? (fun cand => (host.dlopen cand).toOption) = some h := by
        rw [List.findSome?_cons, hopen]
        rfl
      rw [hfirst]
      simp only [openFirst, DynLib.openPath, hopen]
    | error err =>
      have hnext : (cand :: rest).findSome? (fun cand => (host.dlopen cand).toOption) =
          rest.findSome? fun cand => (host.dlopen cand).toOption := by
        rw [List.findSome?_cons, hopen]
        rfl
      have hrest := ih lib.close ("dlopen failed: " ++ cand ++ ": " ++ err.getD "unknown")
      have hstep : ∀ open_error, openFirst host (cand :: rest) lib open_error =
          openFirst host rest lib.close ("dlopen failed: " ++ cand ++ ": " ++ err.getD "unknown") := by
        intro open_error
        simp only [openFirst, DynLib.openPath, hopen]
      rw [hnext, hstep]
      cases hfound : rest.findSome? fun cand => (host.dlopen cand).toOption with
      | some h =>
        rw [hfound] at hrest
        exact hrest
      | none =>
        rw [hfound] at hrest
        exact fun _ => hrest fun _ => rfl

theorem last_mem_symbols (prefix_ : String) : prefix_ ++ "_" ++ "capabilities_result" ∈ symbols prefix_ :=
  List.mem_map.mpr ⟨"capabilities_result", by decide, rfl⟩

theorem candidates_ne_nil (r : LoadRequest H) : candidates r ≠ [] :=
  List.append_ne_nil_of_right_ne_nil _ (List.cons_ne_nil _ _)

/-- Without a library a load throws, and no library is open. -/
theorem load_of_none (l : ProfileLoader H A) (h : opened r = none) :
    ∃ what, l.load dlsym r = (.error what, ⟨⟨none⟩, r.prefix_, l.profile⟩) := by
  have hfirst := openFirst_eq r.host (candidates r) l.lib_ ""
  rw [opened] at h
  rw [h] at hfirst
  obtain ⟨what, hwhat⟩ := hfirst fun hnil => absurd hnil (candidates_ne_nil r)
  rw [ProfileLoader.load, hwhat]
  exact ⟨_, rfl⟩

/-- With a library all pointers are its own, and a load returns where none is missing. -/
theorem load_of_some (l : ProfileLoader H A) {h : H} (hopened : opened r = some h) :
    (l.load dlsym r).2.lib_.handle = some h ∧
      (l.load dlsym r).2.profile.pointers = (symbols r.prefix_).map (dlsym h) ∧
      ((l.load dlsym r).1 = .ok () ↔ unresolved (dlsym h) (symbols r.prefix_) = []) := by
  have hfirst := openFirst_eq r.host (candidates r) l.lib_ ""
  rw [opened] at hopened
  rw [hopened] at hfirst
  obtain ⟨hpointers, hmissing⟩ := resolveProfile_run (dlsym h) r.prefix_
  have hsym : DynLib.sym_optional dlsym ⟨some h⟩ = dlsym h := rfl
  rw [ProfileLoader.load, hfirst]
  simp only [hsym]
  generalize (resolveProfile (dlsym h) r.prefix_).run [] = resolved at hpointers hmissing ⊢
  obtain ⟨profile, missing⟩ := resolved
  dsimp only at hpointers hmissing ⊢
  rw [← hmissing]
  by_cases hnone : missing = []
  · rw [if_neg (not_not.mpr hnone)]
    exact ⟨rfl, hpointers, iff_of_true rfl hnone⟩
  · rw [if_pos hnone]
    exact ⟨rfl, hpointers, iff_of_false (fun hok => nomatch hok) hnone⟩

theorem unresolved_eq_nil {sym_optional : String → Option A} {syms : List String} :
    unresolved sym_optional syms = [] ↔ ∀ sym ∈ syms, (sym_optional sym).isSome := by
  rw [unresolved, List.filter_eq_nil_iff]
  refine forall₂_congr fun sym _ => ?_
  cases sym_optional sym with
  | none => exact iff_of_false (fun h => h rfl) Bool.noConfusion
  | some fn => exact iff_of_true Bool.noConfusion rfl

/-- A loader counts as loaded by the last symbol of the library that is open. -/
theorem loaded_of_some (l : ProfileLoader H A) {h : H} (hopened : opened r = some h) :
    (l.load dlsym r).2.loaded = (dlsym h (r.prefix_ ++ "_" ++ "capabilities_result")).isSome := by
  obtain ⟨hhandle, hpointers, -⟩ := load_of_some dlsym l hopened
  have hlast : (l.load dlsym r).2.profile.capabilities_result =
      dlsym h (r.prefix_ ++ "_" ++ "capabilities_result") := by
    have hlists := congrArg List.getLast? hpointers
    exact Option.some.inj hlists
  rw [ProfileLoader.loaded, DynLib.valid, hhandle, hlast]
  rfl

/-- A load is all or nothing where the library has the whole profile or not its last symbol. -/
theorem allOrNothing_iff (l : ProfileLoader H A) : AllOrNothing dlsym r (l.load dlsym r) ↔ Loads dlsym r := by
  cases hopened : opened r with
  | none =>
    obtain ⟨what, hwhat⟩ := load_of_none dlsym l hopened
    rw [hwhat]
    refine iff_of_true ⟨iff_of_false Bool.noConfusion (fun hok => nomatch hok), fun hl => nomatch hl⟩ ?_
    intro h hh
    cases hopened.symm.trans hh
  | some h =>
    obtain ⟨hhandle, hpointers, hreturns⟩ := load_of_some dlsym l hopened
    have hloaded := loaded_of_some dlsym l hopened
    rw [unresolved_eq_nil] at hreturns
    constructor
    · intro hall h' hh'
      cases hopened.symm.trans hh'
      cases hlast : dlsym h (r.prefix_ ++ "_" ++ "capabilities_result") with
      | none => exact Or.inr rfl
      | some fn =>
        rw [hlast] at hloaded
        exact Or.inl (hreturns.mp (hall.loaded_iff.mp hloaded))
    · intro hloads
      rcases hloads h hopened with hwhole | hnone
      · have hok := hreturns.mpr hwhole
        refine ⟨iff_of_true ?_ hok, fun _ => ⟨h, hopened, hhandle, hpointers, ?_⟩⟩
        · rw [hloaded]
          exact hwhole _ (last_mem_symbols r.prefix_)
        · intro fn hfn
          rw [hpointers] at hfn
          obtain ⟨sym, hsym, rfl⟩ := List.mem_map.mp hfn
          exact hwhole sym hsym
      · rw [hnone] at hloaded
        have hthrows : (l.load dlsym r).1 ≠ .ok () := by
          intro hok
          have hsome := hreturns.mp hok _ (last_mem_symbols r.prefix_)
          rw [hnone] at hsome
          cases hsome
        have hnot : ¬ (l.load dlsym r).2.loaded = true := by
          rw [hloaded]
          exact Bool.noConfusion
        exact ⟨iff_of_false hnot hthrows, fun hl => absurd hl hnot⟩

/-- In a run of loads each is all or nothing exactly when every library that is opened has the whole
profile or not its last symbol; before the first load nothing is loaded. -/
theorem loads_all_or_nothing_iff (requests : List (LoadRequest H)) :
    (loader dlsym).fresh.loaded = false ∧
    ((∀ before r rest, requests = before ++ r :: rest →
      AllOrNothing dlsym r ((loader dlsym).call ((loader dlsym).after (loader dlsym).fresh before) r)) ↔
    ∀ r ∈ requests, Loads dlsym r) := by
  refine ⟨rfl, ?_, ?_⟩
  · intro h r hr
    obtain ⟨before, rest, hrequests⟩ := List.mem_iff_append.mp hr
    exact (allOrNothing_iff dlsym _).mp (h before r rest hrequests)
  · rintro h before r rest rfl
    exact (allOrNothing_iff dlsym _).mpr (h r (List.mem_append_right before List.mem_cons_self))

end Load

/-- A library with one symbol of the profile only. -/
def capabilitiesOnly (_ : Unit) (sym : String) : Option ℕ :=
  if sym = "nwchemc_capabilities_result" then some 0 else none

/-- A host on which every path opens. -/
def host : Host Unit := ⟨fun _ => none, fun _ => .ok ()⟩

/-- The load throws, and the loader counts as loaded. -/
theorem not_loads_all_or_nothing : ¬ ∀ requests before r rest, requests = before ++ r :: rest →
    AllOrNothing capabilitiesOnly r
      ((loader capabilitiesOnly).call ((loader capabilitiesOnly).after {} before) r) := by
  intro h
  have hall := h _ [] ⟨host, "nwchemc", ""⟩ [] rfl
  rcases (allOrNothing_iff _ {}).mp hall () rfl with hwhole | hnone
  · have hfirst := hwhole ("nwchemc" ++ "_" ++ "abi_version") List.mem_cons_self
    simp [capabilitiesOnly] at hfirst
  · simp [capabilitiesOnly] at hnone

end Rgpot.Abi
