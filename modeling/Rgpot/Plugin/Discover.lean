import Mathlib.Data.List.Sort
import Mathlib.Data.String.Basic
import Rgpot.Plugin.Libraries

/-! `PluginRegistry::discover`: the libraries in the directories of `RGPOT_PLUGIN_PATH`. -/
namespace Rgpot.Plugin
open SharedHandles Rgpot.Units

/-- `path::extension`: a name that starts with its only dot has none. -/
def extension (name : List Char) : List Char :=
  let last := name.reverse.takeWhile (· ≠ '.')
  let stem := (name.reverse.dropWhile (· ≠ '.')).drop 1
  if '.' ∉ name ∨ name = ['.', '.'] ∨ stem = [] then [] else '.' :: last.reverse

def soExtension : List Char := ['.', 's', 'o']

/-- An entry of a directory: its name, and whether it is a regular file. -/
abbrev Entry := String × Bool

/-- The entries of each path that is a directory, in the order in which its iterator meets them. -/
abbrev Listing := String → Option (List Entry)

def directoryPaths (directory : String) (entries : List Entry) : List String :=
  let names := (entries.filter fun e => e.2 && extension e.1.toList = soExtension).map Prod.fst
  let slash := if directory.toList.getLast? = some '/' then "" else "/"
  (names.mergeSort (· ≤ ·)).map fun name => directory ++ slash ++ name

/-- The paths that `discover` loads, in its order. -/
def pluginPaths (listing : Listing) (path : Option String) : List String :=
  match path with
  | none => []
  | some path =>
    let directories := ((path.toList.splitOn ':').filter fun d => d ≠ []).map String.ofList
    directories.flatMap fun d => ((listing d).map (directoryPaths d)).getD []

variable {L K I : Type} [DecidableEq L] (w : World L K I)

/-- The steps of one call of `load_plugin` that nothing interrupts. -/
def loadSteps (path : String) : List Event :=
  match w.dlopen path with
  | none => []
  | some library =>
    match w.init library with
    | none => [.open path, .init 0, .finish 0]
    | some init =>
      match init.bind checkedDescriptor with
      | .error _ => [.open path, .init 0, .finish 0]
      | .ok _ => [.open path, .init 0, .register 0, .finish 0]

def discover (listing : Listing) (path : Option String) (s : Host L) : Option (Host L) :=
  run w s ((pluginPaths listing path).flatMap (loadSteps w))

section Loads
variable {w} {s : Host L} {path : String}

/-- The registry between the calls of its functions: the calls of `load_plugin` under way, and the names of its
plugins with their paths. -/
structure At (s : Host L) (calls : List (LoadCall L)) (entries : List (Text × String)) : Prop where
  loading : s.loading = calls
  entries : s.plugins.map (fun p => (p.name, p.path)) = entries
  running : s.exited = false

/-- The name under which a path would be registered. -/
def validName (w : World L K I) (path : String) : Option Text :=
  (w.dlopen path).bind fun library => (nameOf w (.plugin library)).toOption

/-- The names and paths after a path was loaded. -/
def addEntry (w : World L K I) (entries : List (Text × String)) (path : String) : List (Text × String) :=
  match validName w path with
  | none => entries
  | some name => if entries.any fun e => e.1 = name then entries else entries ++ [(name, path)]

theorem run_append {es es' : List Event} : run w s (es ++ es') = (run w s es).bind fun t => run w t es' := by
  induction es generalizing s with
  | nil => rfl
  | cons e es ih =>
    rw [List.cons_append, run, run, Option.bind_assoc]
    exact congrArg (step w s e).bind (funext fun t => ih)

theorem run_cons {e : Event} {es : List Event} {P Q : Host L → Prop} (hstep : ∃ t, step w s e = some t ∧ P t)
    (hrest : ∀ t, P t → ∃ u, run w t es = some u ∧ Q u) : ∃ u, run w s (e :: es) = some u ∧ Q u := by
  obtain ⟨t, hstep, hP⟩ := hstep
  obtain ⟨u, hrun, hQ⟩ := hrest t hP
  exact ⟨u, Option.bind_eq_some_iff.mpr ⟨t, hstep, hrun⟩, hQ⟩

variable {calls : List (LoadCall L)} {entries : List (Text × String)} {block : Block L} {library : L}

omit [DecidableEq L] in
theorem loading_call (desc : Source L) : (s.call desc).loading = s.loading := by
  unfold Host.call
  split
  · rfl
  · split <;> rfl

theorem step_open (h : At s calls entries) (hopen : w.dlopen path = some library) :
    ∃ t, step w s (.open path) = some t ∧
      ∃ address, At t (⟨⟨address, library⟩, path, .opened⟩ :: calls) entries := by
  refine ⟨openLibrary w s path, ?_, s.fresh, ?_⟩
  · rw [step, h.running]
    rfl
  · rw [openLibrary, hopen]
    exact ⟨congrArg _ h.loading, h.entries, h.running⟩

theorem step_init (h : At s (⟨block, path, .opened⟩ :: calls) entries) :
    ∃ t, step w s (.init 0) = some t ∧ At t (⟨block, path, match nameOf w (.plugin block.library) with
      | .error _ => .finished false
      | .ok name => .checked name⟩ :: calls) entries := by
  have hloading := h.loading
  have hstep : step w s (.init 0) = initLibrary w s 0 := by
    rw [step, h.running]
    rfl
  have hget : s.loading[0]? = some ⟨block, path, .opened⟩ := by
    rw [hloading]
    rfl
  have hset (stage : Stage) : s.loading.set 0 ⟨block, path, stage⟩ = ⟨block, path, stage⟩ :: calls := by
    rw [hloading]
    rfl
  have hentries : (s.call (.plugin block.library)).plugins.map (fun p => (p.name, p.path)) = entries :=
    (congrArg _ (call_plugins _)).trans h.entries
  rw [hstep, initLibrary, hget, nameOf]
  simp only [loading_call, hset]
  cases hinit : w.init block.library with
  | none =>
    refine ⟨_, rfl, ?_⟩
    exact ⟨rfl, h.entries, h.running⟩
  | some init =>
    dsimp only
    cases hchecked : init.bind checkedDescriptor with
    | error e =>
      refine ⟨_, rfl, ?_⟩
      exact ⟨rfl, hentries, (call_exited _).trans h.running⟩
    | ok descriptor =>
      refine ⟨_, rfl, ?_⟩
      exact ⟨rfl, hentries, (call_exited _).trans h.running⟩

theorem step_finish {registered : Bool} (h : At s (⟨block, path, .finished registered⟩ :: calls) entries) :
    ∃ t, step w s (.finish 0) = some t ∧ At t calls entries := by
  have hstep : step w s (.finish 0) = finishLoad s 0 := by
    rw [step, h.running]
    rfl
  have hget : s.loading[0]? = some ⟨block, path, .finished registered⟩ := by
    rw [h.loading]
    rfl
  rw [hstep, finishLoad, hget]
  refine ⟨_, rfl, ?_, h.entries, h.running⟩
  exact congrArg (·.eraseIdx 0) h.loading

theorem step_register {name : Text} (h : At s (⟨block, path, .checked name⟩ :: calls) entries) :
    ∃ t, step w s (.register 0) = some t ∧ ∃ registered, At t (⟨block, path, .finished registered⟩ :: calls)
      (if entries.any fun e => e.1 = name then entries else entries ++ [(name, path)]) := by
  have hstep : step w s (.register 0) = registerLibrary s 0 := by
    rw [step, h.running]
    rfl
  have hget : s.loading[0]? = some ⟨block, path, .checked name⟩ := by
    rw [h.loading]
    rfl
  have hnames : name ∈ s.list_plugins ↔ (entries.any fun e => e.1 = name) = true := by
    simp [Host.list_plugins, ← h.entries]
  have hset (stage : Stage) : s.loading.set 0 ⟨block, path, stage⟩ = ⟨block, path, stage⟩ :: calls :=
    congrArg (·.set 0 ⟨block, path, stage⟩) h.loading
  rw [hstep, registerLibrary, hget]
  simp only [hnames]
  split
  · exact ⟨_, rfl, false, hset _, h.entries, h.running⟩
  · refine ⟨_, rfl, true, hset _, ?_, h.running⟩
    simp only [List.map_append, List.map_cons, List.map_nil, h.entries]

theorem run_load (h : At s calls entries) (path : String) :
    ∃ t, run w s (loadSteps w path) = some t ∧ At t calls (addEntry w entries path) := by
  rw [loadSteps, addEntry, validName]
  cases hopen : w.dlopen path with
  | none => exact ⟨s, rfl, h⟩
  | some library =>
    have hopened := step_open h hopen
    simp only [Option.bind_some]
    cases hinit : w.init library with
    | none =>
      have hname : nameOf w (.plugin library) = .error (.runtimeError "") := by
        rw [nameOf, hinit]
      rw [hname]
      refine run_cons hopened ?_
      rintro u ⟨address, hu⟩
      refine run_cons (step_init hu) fun v hv => ?_
      rw [hname] at hv
      exact run_cons (step_finish hv) fun t ht => ⟨t, rfl, ht⟩
    | some init =>
      have hname : nameOf w (.plugin library) = (init.bind checkedDescriptor).map CheckedDescriptor.name := by
        rw [nameOf, hinit]
      rw [hname]
      dsimp only
      cases hchecked : init.bind checkedDescriptor with
      | error e =>
        rw [hchecked] at hname
        refine run_cons hopened ?_
        rintro u ⟨address, hu⟩
        refine run_cons (step_init hu) fun v hv => ?_
        rw [hname] at hv
        exact run_cons (step_finish hv) fun t ht => ⟨t, rfl, ht⟩
      | ok descriptor =>
        rw [hchecked] at hname
        refine run_cons hopened ?_
        rintro u ⟨address, hu⟩
        refine run_cons (step_init hu) fun v hv => ?_
        rw [hname] at hv
        refine run_cons (step_register hv) ?_
        rintro x ⟨registered, hx⟩
        exact run_cons (step_finish hx) fun t ht => ⟨t, rfl, ht⟩

theorem run_loads (h : At s calls entries) (paths : List String) :
    ∃ t, run w s (paths.flatMap (loadSteps w)) = some t ∧ At t calls (paths.foldl (addEntry w) entries) := by
  induction paths generalizing s entries with
  | nil => exact ⟨s, rfl, h⟩
  | cons path paths ih =>
    obtain ⟨u, hu, hloaded⟩ := run_load h path
    obtain ⟨t, ht, hrest⟩ := ih hloaded
    refine ⟨t, ?_, hrest⟩
    rw [List.flatMap_cons, run_append, hu]
    exact ht

omit [DecidableEq L] in
/-- A name leads to the first path that has it. -/
theorem find_foldl_addEntry (entries : List (Text × String)) (paths : List String) (name : Text) :
    ((paths.foldl (addEntry w) entries).find? fun e => e.1 = name).map Prod.snd =
      ((entries.find? fun e => e.1 = name).map Prod.snd).or (paths.find? fun p => validName w p = some name) := by
  induction paths generalizing entries with
  | nil => simp
  | cons path paths ih =>
    rw [List.foldl_cons, ih, List.find?_cons, addEntry]
    cases hvalid : validName w path with
    | none => simp
    | some other =>
      dsimp only
      by_cases hknown : (entries.any fun e => e.1 = other) = true
      · -- a name that is taken: its plugin stays
        rw [if_pos hknown]
        by_cases hname : other = name
        · subst hname
          have hfound : (entries.find? fun e => e.1 = other).isSome := by
            rw [List.find?_isSome]
            exact List.any_eq_true.mp hknown
          obtain ⟨first, hfirst⟩ := Option.isSome_iff_exists.mp hfound
          rw [hfirst]
          rfl
        · simp [hname]
      · rw [if_neg hknown, List.find?_append]
        by_cases hname : other = name
        · subst hname
          have hnone : (entries.find? fun e => e.1 = other) = none := by
            rw [List.find?_eq_none]
            exact fun e he hfst => hknown (List.any_eq_true.mpr ⟨e, he, hfst⟩)
          simp [hnone]
        · simp [hname]

omit [DecidableEq L] in
theorem find_entries (name : Text) (h : At s calls entries) :
    (s.find name).map LoadedPlugin.path = (entries.find? fun e => e.1 = name).map Prod.snd := by
  rw [Host.find, ← h.entries, List.find?_map, Option.map_map]
  rfl

end Loads

section Order

theorem directoryPaths_perm {directory : String} {entries entries' : List Entry} (h : entries.Perm entries') :
    directoryPaths directory entries = directoryPaths directory entries' := by
  have hnames := (h.filter fun e => e.2 && extension e.1.toList = soExtension).map Prod.fst
  have hsorted : ((entries.filter fun e => e.2 && extension e.1.toList = soExtension).map Prod.fst).mergeSort (· ≤ ·) =
      ((entries'.filter fun e => e.2 && extension e.1.toList = soExtension).map Prod.fst).mergeSort (· ≤ ·) := by
    refine List.Perm.eq_of_pairwise' (List.pairwise_mergeSort' (· ≤ ·) _) (List.pairwise_mergeSort' (· ≤ ·) _) ?_
    exact (List.mergeSort_perm _ _).trans (hnames.trans (List.mergeSort_perm _ _).symm)
  rw [directoryPaths, directoryPaths, hsorted]

/-- The same files, met in another order. -/
def Reordered (listing listing' : Listing) : Prop := ∀ d, Option.Rel List.Perm (listing d) (listing' d)

theorem pluginPaths_perm {listing listing' : Listing} (h : Reordered listing listing') (path : Option String) :
    pluginPaths listing path = pluginPaths listing' path := by
  have hpaths (d : String) : ((listing d).map (directoryPaths d)).getD [] =
      ((listing' d).map (directoryPaths d)).getD [] := by
    have hd := h d
    revert hd
    generalize listing d = files
    generalize listing' d = files'
    rintro (hperm | _)
    · exact directoryPaths_perm hperm
    · rfl
  cases path with
  | none => rfl
  | some path =>
    rw [pluginPaths, pluginPaths]
    exact congrArg (List.flatMap · _) (funext hpaths)

end Order

/-- `discover` never depends on the order in which a directory lists its files. After it a name leads to the
plugin it led to before, that plugin itself, or else to the first path that has it, directory by directory as the
variable names them. -/
theorem discover_first_wins {s : Host L} (hrunning : s.exited = false) (listing : Listing) (path : Option String) :
    (∀ listing', Reordered listing listing' → discover w listing' path s = discover w listing path s) ∧
      ∃ t, discover w listing path s = some t ∧ t.loading = s.loading ∧ ∀ name,
        (∀ p, s.find name = some p → t.find name = some p) ∧
        (t.find name).map LoadedPlugin.path = ((s.find name).map LoadedPlugin.path).or
          ((pluginPaths listing path).find? fun p => validName w p = some name) := by
  refine ⟨fun listing' h => ?_, ?_⟩
  · rw [discover, discover, pluginPaths_perm h]
  · have hs : At s s.loading (s.plugins.map fun p => (p.name, p.path)) := ⟨rfl, rfl, hrunning⟩
    obtain ⟨t, hrun, ht⟩ := run_loads (w := w) hs (pluginPaths listing path)
    have hplugins := (grown_run hrun ht.running).2
    refine ⟨t, hrun, ht.loading, fun name => ⟨fun p => find_of_prefix hplugins, ?_⟩⟩
    rw [find_entries name ht, find_entries name hs, find_foldl_addEntry]

/-- Two directories whose libraries all have one name. -/
def sampleListing : Listing := fun d =>
  if d = "/a" then some [("b.so", true), ("a.so", true), ("c.txt", true)]
  else if d = "/b" then some [("d.so", true), (".so", true)]
  else none

/-- A registry with a plugin of its own. -/
def sampleHost : Host ℕ := { emptyHost with plugins := [⟨.builtin 0, ['y'], "", none⟩] }

theorem discover_first_wins_sample :
    (∀ listing', Reordered sampleListing listing' →
      discover sampleWorld listing' (some "/a::/b") sampleHost =
        discover sampleWorld sampleListing (some "/a::/b") sampleHost) ∧
      ∃ t, discover sampleWorld sampleListing (some "/a::/b") sampleHost = some t ∧ t.loading = [] ∧ ∀ name,
        (∀ p, sampleHost.find name = some p → t.find name = some p) ∧
        (t.find name).map LoadedPlugin.path = ((sampleHost.find name).map LoadedPlugin.path).or
          ((pluginPaths sampleListing (some "/a::/b")).find? fun p => validName sampleWorld p = some name) :=
  discover_first_wins sampleWorld rfl sampleListing (some "/a::/b")

end Rgpot.Plugin
