import Rgpot.Plugin.Host

/-! What keeps the libraries of plugins mapped, in every order of calls. -/
namespace Rgpot.Plugin
open SharedHandles Rgpot.Units

variable {L K I : Type} [DecidableEq L]

section Invariant
variable (w : World L K I)

/-- The owners of the libraries: the calls under way, the registry and the potentials. -/
def Host.owners (s : Host L) : List (Block L) :=
  s.loading.map LoadCall.block ++ s.plugins.filterMap LoadedPlugin.library ++
    s.creating.filterMap Client.library ++ s.pots.filterMap Client.library

/-- A descriptor that lies in a library comes with a pointer to the library. -/
def Backed (desc : Source L) (library : Option (Block L)) : Prop := library.map Block.library = desc.library

/-- The name in a descriptor that passes its checks. -/
def nameOf (desc : Source L) : Except Exn Text :=
  match desc with
  | .builtin n => (checkedDescriptor (w.builtin n)).map CheckedDescriptor.name
  | .plugin library =>
    match w.init library with
    | none => .error (.runtimeError "")
    | some init => (init.bind checkedDescriptor).map CheckedDescriptor.name

structure Inv (s : Host L) : Prop where
  counts : Counts Block.library s.shares s.owners
  fresh : ∀ b ∈ s.owners, b.address < s.fresh
  checked : ∀ c ∈ s.loading, ∀ name, c.stage = .checked name → nameOf w (.plugin c.block.library) = .ok name
  plugins : ∀ p ∈ s.plugins, Backed p.desc p.library ∧ nameOf w p.desc = .ok p.name
  creating : ∀ c ∈ s.creating, Backed c.desc c.library
  pots : ∀ c ∈ s.pots, Backed c.desc c.library
  names : s.list_plugins.Nodup
  dangling : s.dangling = []

variable {w} {s t : Host L} {i : ℕ}

theorem inv_empty : Inv w (emptyHost : Host L) :=
  ⟨counts_nil, nofun, nofun, nofun, nofun, nofun, List.nodup_nil, rfl⟩

/-- A call into a library that someone owns. -/
theorem Inv.call_eq (h : Inv w s) {desc : Source L} (library : Option (Block L)) (hb : Backed desc library)
    (howned : ∀ b, library = some b → b ∈ s.owners) : s.call desc = s := by
  cases desc with
  | builtin n => rfl
  | plugin ℓ =>
    obtain ⟨b, hlib, rfl⟩ := Option.map_eq_some_iff.mp hb
    have hheld := h.counts.held (howned b hlib)
    rw [Host.call, if_neg (by omega)]

theorem Inv.call_pot (h : Inv w s) {pot : Client L} (hpot : pot ∈ s.pots) : s.call pot.desc = s :=
  h.call_eq pot.library (h.pots pot hpot) fun _ hb =>
    List.mem_append_right _ (List.mem_filterMap.mpr ⟨pot, hpot, hb⟩)

theorem inv_open (h : Inv w s) (path : String) : Inv w (openLibrary w s path) := by
  unfold openLibrary
  split
  · exact h
  · rename_i library hopen
    have hnew : (⟨s.fresh, library⟩ : Block L) ∉ s.owners := fun hmem => Nat.lt_irrefl _ (h.fresh _ hmem)
    refine ⟨counts_adopt h.counts hnew, ?_, ?_, h.plugins, h.creating, h.pots, h.names, h.dangling⟩
    · intro b hb
      rcases List.mem_cons.mp hb with rfl | hb
      · exact Nat.lt_succ_self _
      · exact Nat.lt_succ_of_lt (h.fresh b hb)
    · intro c hc name hname
      rcases List.mem_cons.mp hc with rfl | hc
      · cases hname
      · exact h.checked c hc name hname

theorem map_set_eq {α β : Type} {f : α → β} {xs : List α} {x y : α} (hi : xs[i]? = some y) (hf : f x = f y) :
    (xs.set i x).map f = xs.map f := by
  refine List.ext_getElem? fun j => ?_
  rw [List.getElem?_map, List.getElem?_map, List.getElem?_set]
  by_cases hj : i = j
  · subst hj
    obtain ⟨hlt, hget⟩ := List.getElem?_eq_some_iff.mp hi
    simp [hf, hlt, hget]
  · simp [hj]

/-- A call of `load_plugin` gets on. -/
theorem Inv.settle (h : Inv w s) {call : LoadCall L} (hi : s.loading[i]? = some call) (stage : Stage)
    (hstage : ∀ name, stage = .checked name → nameOf w (.plugin call.block.library) = .ok name)
    (cerr : List String) :
    Inv w { s with loading := s.loading.set i ⟨call.block, call.path, stage⟩, cerr := cerr } := by
  have hblocks : (s.loading.set i ⟨call.block, call.path, stage⟩).map LoadCall.block =
      s.loading.map LoadCall.block := map_set_eq hi rfl
  have howners : Host.owners { s with loading := s.loading.set i ⟨call.block, call.path, stage⟩, cerr := cerr } =
      s.owners := by
    simp only [Host.owners, hblocks]
  refine ⟨howners ▸ h.counts, howners ▸ h.fresh, fun c hc name hname => ?_, h.plugins, h.creating, h.pots,
    h.names, h.dangling⟩
  rcases List.mem_or_eq_of_mem_set hc with hc | rfl
  · exact h.checked c hc name hname
  · exact hstage name hname

omit [DecidableEq L] in
theorem mem_owners_of_loading {call : LoadCall L} (hi : s.loading[i]? = some call) : call.block ∈ s.owners := by
  have hmem : call.block ∈ s.loading.map LoadCall.block :=
    List.mem_map.mpr ⟨call, List.mem_of_getElem? hi, rfl⟩
  simp only [Host.owners, List.mem_append]
  exact .inl (.inl (.inl hmem))

omit [DecidableEq L] in
theorem mem_owners_of_plugin {p : LoadedPlugin L} (hp : p ∈ s.plugins) {b : Block L} (hb : p.library = some b) :
    b ∈ s.owners := by
  have howned : b ∈ s.plugins.filterMap LoadedPlugin.library := List.mem_filterMap.mpr ⟨p, hp, hb⟩
  simp only [Host.owners, List.mem_append]
  exact .inl (.inl (.inr howned))

theorem inv_init (h : Inv w s) (hstep : initLibrary w s i = some t) : Inv w t := by
  unfold initLibrary at hstep
  split at hstep
  · rename_i block path hi
    have hcall : s.call (.plugin block.library) = s :=
      h.call_eq (some block) rfl fun _ hb => Option.some.inj hb ▸ mem_owners_of_loading hi
    simp only [hcall] at hstep
    split at hstep
    · obtain rfl := Option.some.inj hstep
      exact h.settle hi (.finished false) nofun s.cerr
    · rename_i init hinit
      split at hstep
      · obtain rfl := Option.some.inj hstep
        exact h.settle hi (.finished false) nofun _
      · rename_i descriptor hchecked
        obtain rfl := Option.some.inj hstep
        refine h.settle hi (.checked descriptor.name) ?_ s.cerr
        rintro _ ⟨⟩
        simp only [nameOf, hinit, hchecked]
        rfl
  · cases hstep

theorem Inv.nodup_names (h : Inv w s) {p : LoadedPlugin L} (hfree : p.name ∉ s.list_plugins) :
    ((s.plugins ++ [p]).map LoadedPlugin.name).Nodup := by
  rw [List.map_append, List.map_cons, List.map_nil, ← List.concat_eq_append]
  exact h.names.concat hfree

theorem inv_register (h : Inv w s) (hstep : registerLibrary s i = some t) : Inv w t := by
  unfold registerLibrary at hstep
  split at hstep
  · rename_i block path name hi
    have hname := h.checked _ (List.mem_of_getElem? hi) name rfl
    have hblock : block ∈ s.owners := mem_owners_of_loading hi
    split at hstep
    · obtain rfl := Option.some.inj hstep
      exact h.settle hi (.finished false) nofun s.cerr
    · rename_i hfree
      obtain rfl := Option.some.inj hstep
      have hsettled := h.settle hi (.finished true) nofun s.cerr
      have hblocks : (s.loading.set i ⟨block, path, .finished true⟩).map LoadCall.block =
          s.loading.map LoadCall.block := map_set_eq hi rfl
      -- the registry's pointer is one more owner
      have hperm : (block :: s.owners).Perm
          (((s.loading.set i ⟨block, path, .finished true⟩).map LoadCall.block ++ (s.plugins ++ [
            (⟨.plugin block.library, name, path, some block⟩ : LoadedPlugin L)]).filterMap LoadedPlugin.library ++
              s.creating.filterMap Client.library) ++ s.pots.filterMap Client.library) := by
        rw [hblocks]
        refine List.perm_iff_count.mpr fun c => ?_
        simp only [Host.owners, List.filterMap_append, List.filterMap_cons, List.filterMap_nil,
          List.count_append, List.count_cons, List.count_nil]
        omega
      refine ⟨?_, ?_, hsettled.checked, ?_, h.creating, h.pots, ?_, h.dangling⟩
      · exact (counts_share h.counts hblock).perm hperm
      · intro b hb
        rcases List.mem_cons.mp (hperm.mem_iff.mpr hb) with rfl | hb
        · exact h.fresh _ hblock
        · exact h.fresh b hb
      · intro p hp
        rcases List.mem_append.mp hp with hp | hp
        · exact h.plugins p hp
        · obtain rfl := List.mem_singleton.mp hp
          exact ⟨rfl, hname⟩
      · exact h.nodup_names hfree
  · cases hstep

theorem counts_dropped {shares : Shares (Block L) L} {library : Option (Block L)} {owners : List (Block L)}
    (h : Counts Block.library shares (library.toList ++ owners)) :
    Counts Block.library (dropped shares library) owners := by
  cases library with
  | none => exact h
  | some b => exact SharedHandles.counts_release h

/-- An owner goes. -/
theorem Inv.counts_release (h : Inv w s) {library : Option (Block L)} {owners : List (Block L)}
    (hperm : s.owners.Perm (library.toList ++ owners)) :
    Counts Block.library (dropped s.shares library) owners ∧ ∀ b ∈ owners, b.address < s.fresh := by
  exact ⟨counts_dropped (h.counts.perm hperm), fun b hb => h.fresh b (hperm.mem_iff.mpr (List.mem_append_right _ hb))⟩

omit [DecidableEq L] in
theorem perm_eraseIdx {α : Type} {xs : List α} {x : α} (hi : xs[i]? = some x) : xs.Perm (x :: xs.eraseIdx i) := by
  obtain ⟨hlt, rfl⟩ := List.getElem?_eq_some_iff.mp hi
  exact (List.getElem_cons_eraseIdx_perm hlt).symm

omit [DecidableEq L] in
theorem filterMap_eraseIdx {α β : Type} (f : α → Option β) {xs : List α} {x : α} (hi : xs[i]? = some x) :
    (xs.filterMap f).Perm ((f x).toList ++ (xs.eraseIdx i).filterMap f) := by
  refine ((perm_eraseIdx hi).filterMap f).trans ?_
  rw [List.filterMap_cons]
  cases f x <;> exact List.Perm.refl _

theorem inv_finish (h : Inv w s) (hstep : finishLoad s i = some t) : Inv w t := by
  unfold finishLoad at hstep
  split at hstep
  · rename_i block path registered hi
    obtain rfl := Option.some.inj hstep
    have hloading := (perm_eraseIdx hi).map LoadCall.block
    have hperm : s.owners.Perm ((some block).toList ++ ((s.loading.eraseIdx i).map LoadCall.block ++
        s.plugins.filterMap LoadedPlugin.library ++ s.creating.filterMap Client.library ++
          s.pots.filterMap Client.library)) :=
      ((hloading.append_right _).append_right _).append_right _
    obtain ⟨hcounts, hfresh⟩ := h.counts_release hperm
    refine ⟨hcounts, hfresh, fun c hc => h.checked c (List.mem_of_mem_eraseIdx hc), h.plugins, h.creating, h.pots,
      h.names, h.dangling⟩
  · cases hstep

theorem inv_register_builtin (h : Inv w s) {n : ℕ} (hstep : register_builtin w s n = some t) : Inv w t := by
  unfold register_builtin at hstep
  split at hstep
  · cases hstep
  · rename_i descriptor hchecked
    split at hstep
    · cases hstep
    · rename_i hfree
      obtain rfl := Option.some.inj hstep
      have howners : (s.plugins ++ [(⟨.builtin n, descriptor.name, "", none⟩ : LoadedPlugin L)]).filterMap
          LoadedPlugin.library = s.plugins.filterMap LoadedPlugin.library := by simp
      refine ⟨?_, ?_, h.checked, fun p hp => ?_, h.creating, h.pots, ?_, h.dangling⟩
      · simp only [Host.owners, howners]
        exact h.counts
      · simp only [Host.owners, howners]
        exact h.fresh
      · rcases List.mem_append.mp hp with hp | hp
        · exact h.plugins p hp
        · obtain rfl := List.mem_singleton.mp hp
          refine ⟨rfl, ?_⟩
          simp only [nameOf, hchecked]
          rfl
      · exact h.nodup_names hfree

/-- A registered descriptor is retained with its library. -/
theorem Inv.backed_retain (h : Inv w s) {p : LoadedPlugin L} (hp : p ∈ s.plugins) :
    Backed p.desc (s.retain_library p.desc) ∧ ∀ b, s.retain_library p.desc = some b → b ∈ s.owners := by
  have hfound : (s.plugins.find? fun q => q.desc = p.desc).isSome := by
    rw [List.find?_isSome]
    exact ⟨p, hp, decide_eq_true rfl⟩
  obtain ⟨q, hq⟩ := Option.isSome_iff_exists.mp hfound
  have hdesc : q.desc = p.desc := by simpa using List.find?_some hq
  have hmem := List.mem_of_find?_eq_some hq
  rw [Host.retain_library, hq, Option.bind_some, ← hdesc]
  exact ⟨(h.plugins q hmem).1, fun _ hb => mem_owners_of_plugin hmem hb⟩

theorem inv_create (h : Inv w s) {name : Text} (hstep : startCreate s name = some t) : Inv w t := by
  unfold startCreate at hstep
  split at hstep
  · cases hstep
  · rename_i plugin hfind
    obtain rfl := Option.some.inj hstep
    obtain ⟨hbacked, howned⟩ := h.backed_retain (List.mem_of_find?_eq_some hfind)
    generalize s.retain_library plugin.desc = library at hbacked howned
    have hcreating : ∀ c ∈ (⟨plugin.desc, library⟩ : Client L) :: s.creating, Backed c.desc c.library := by
      intro c hc
      rcases List.mem_cons.mp hc with rfl | hc
      · exact hbacked
      · exact h.creating c hc
    cases library with
    | none => exact ⟨h.counts, h.fresh, h.checked, h.plugins, hcreating, h.pots, h.names, h.dangling⟩
    | some b =>
      have hb := howned b rfl
      have hperm : (b :: s.owners).Perm (s.loading.map LoadCall.block ++ s.plugins.filterMap LoadedPlugin.library ++
          ((⟨plugin.desc, some b⟩ : Client L) :: s.creating).filterMap Client.library ++
            s.pots.filterMap Client.library) := by
        refine List.perm_iff_count.mpr fun c => ?_
        simp only [Host.owners, List.filterMap_cons, List.count_append, List.count_cons]
        omega
      refine ⟨(counts_share h.counts hb).perm hperm, fun c hc => ?_, h.checked, h.plugins, hcreating, h.pots, h.names,
        h.dangling⟩
      rcases List.mem_cons.mp (hperm.mem_iff.mpr hc) with rfl | hc
      · exact h.fresh _ hb
      · exact h.fresh c hc

theorem inv_created (h : Inv w s) {ok : Bool} (hstep : finishCreate s i ok = some t) : Inv w t := by
  unfold finishCreate at hstep
  split at hstep
  · cases hstep
  · rename_i client hi
    have hmem := List.mem_of_getElem? hi
    have hcall : s.call client.desc = s := h.call_eq client.library (h.creating client hmem) fun b hb => by
      have howned : b ∈ s.creating.filterMap Client.library := List.mem_filterMap.mpr ⟨client, hmem, hb⟩
      simp only [Host.owners, List.mem_append]
      exact .inl (.inr howned)
    have hcreating : ∀ c ∈ s.creating.eraseIdx i, Backed c.desc c.library :=
      fun c hc => h.creating c (List.mem_of_mem_eraseIdx hc)
    have hclients := filterMap_eraseIdx Client.library hi
    rw [hcall] at hstep
    split at hstep
    · obtain rfl := Option.some.inj hstep
      -- the potential takes over the pointer of the call
      have hperm : s.owners.Perm (s.loading.map LoadCall.block ++ s.plugins.filterMap LoadedPlugin.library ++
          (s.creating.eraseIdx i).filterMap Client.library ++ (client :: s.pots).filterMap Client.library) := by
        have hpots : (client :: s.pots).filterMap Client.library =
            client.library.toList ++ s.pots.filterMap Client.library := by
          rw [List.filterMap_cons]
          cases client.library <;> rfl
        refine List.perm_iff_count.mpr fun c => ?_
        simp only [Host.owners, hpots, List.count_append, hclients.count_eq]
        omega
      refine ⟨h.counts.perm hperm, fun b hb => h.fresh b (hperm.mem_iff.mpr hb), h.checked, h.plugins, hcreating,
        fun c hc => ?_, h.names, h.dangling⟩
      rcases List.mem_cons.mp hc with rfl | hc
      · exact h.creating _ hmem
      · exact h.pots c hc
    · obtain rfl := Option.some.inj hstep
      have hperm : s.owners.Perm (client.library.toList ++ (s.loading.map LoadCall.block ++
          s.plugins.filterMap LoadedPlugin.library ++ (s.creating.eraseIdx i).filterMap Client.library ++
            s.pots.filterMap Client.library)) := by
        refine List.perm_iff_count.mpr fun c => ?_
        simp only [Host.owners, List.count_append, hclients.count_eq]
        omega
      obtain ⟨hcounts, hfresh⟩ := h.counts_release hperm
      exact ⟨hcounts, hfresh, h.checked, h.plugins, hcreating, h.pots, h.names, h.dangling⟩

theorem inv_destroy (h : Inv w s) (hstep : destroyPot s i = some t) : Inv w t := by
  unfold destroyPot at hstep
  split at hstep
  · cases hstep
  · rename_i pot hi
    obtain rfl := Option.some.inj hstep
    have hpots := filterMap_eraseIdx Client.library hi
    have hperm : s.owners.Perm (pot.library.toList ++ (s.loading.map LoadCall.block ++
        s.plugins.filterMap LoadedPlugin.library ++ s.creating.filterMap Client.library ++
          (s.pots.eraseIdx i).filterMap Client.library)) := by
      refine List.perm_iff_count.mpr fun c => ?_
      simp only [Host.owners, List.count_append, hpots.count_eq]
      omega
    obtain ⟨hcounts, hfresh⟩ := h.counts_release hperm
    rw [h.call_pot (List.mem_of_getElem? hi)]
    exact ⟨hcounts, hfresh, h.checked, h.plugins, h.creating, fun c hc => h.pots c (List.mem_of_mem_eraseIdx hc),
      h.names, h.dangling⟩

theorem inv_calculate (h : Inv w s) (hstep : calculate s i = some t) : Inv w t := by
  obtain ⟨pot, hi, rfl⟩ := Option.map_eq_some_iff.mp hstep
  rw [h.call_pot (List.mem_of_getElem? hi)]
  exact h

theorem counts_foldl_dropped {shares : Shares (Block L) L} {ps : List (Option (Block L))} {owners : List (Block L)}
    (h : Counts Block.library shares (ps.filterMap id ++ owners)) :
    Counts Block.library (ps.foldl dropped shares) owners := by
  induction ps generalizing shares with
  | nil => exact h
  | cons library ps ih =>
    refine ih (counts_dropped ?_)
    cases library with
    | none => exact h
    | some b => exact h

theorem inv_exit (h : Inv w s) (hstep : exitProgram s = some t) : Inv w t := by
  unfold exitProgram at hstep
  split at hstep
  · obtain rfl := Option.some.inj hstep
    have hplugins : (s.plugins.map LoadedPlugin.library).filterMap id = s.plugins.filterMap LoadedPlugin.library := by
      rw [List.filterMap_map]
      rfl
    have hperm : s.owners.Perm ((s.plugins.map LoadedPlugin.library).filterMap id ++
        (s.loading.map LoadCall.block ++ [] ++ s.creating.filterMap Client.library ++
          s.pots.filterMap Client.library)) := by
      refine List.perm_iff_count.mpr fun c => ?_
      simp only [Host.owners, hplugins, List.count_append, List.count_nil]
      omega
    refine ⟨counts_foldl_dropped (h.counts.perm hperm), fun b hb => ?_, h.checked, nofun, h.creating, h.pots,
      List.nodup_nil, h.dangling⟩
    exact h.fresh b (hperm.mem_iff.mpr (List.mem_append_right _ hb))
  · cases hstep

omit [DecidableEq L] in
/-- An event that needs the program to run. -/
theorem running {r : Option (Host L)} (hr : (if s.exited then none else r) = some t) : r = some t := by
  split at hr
  · cases hr
  · exact hr

theorem inv_step {e : Event} (h : Inv w s) (hstep : step w s e = some t) : Inv w t := by
  cases e with
  | «open» path =>
    obtain rfl := Option.some.inj (running hstep)
    exact inv_open h path
  | init i => exact inv_init h (running hstep)
  | register i => exact inv_register h (running hstep)
  | finish i => exact inv_finish h (running hstep)
  | register_builtin n => exact inv_register_builtin h (running hstep)
  | create name => exact inv_create h (running hstep)
  | created i ok => exact inv_created h (running hstep)
  | calculate i => exact inv_calculate h hstep
  | destroy i => exact inv_destroy h hstep
  | exit => exact inv_exit h (running hstep)

theorem inv_run {es : List Event} (h : Inv w s) (hrun : run w s es = some t) : Inv w t := by
  induction es generalizing s with
  | nil =>
    obtain rfl := Option.some.inj hrun
    exact h
  | cons e es ih =>
    obtain ⟨u, hstep, hrest⟩ := Option.bind_eq_some_iff.mp hrun
    exact ih (inv_step h hstep) hrest

/-- A descriptor is registered once. -/
theorem Inv.eq_of_desc (h : Inv w s) {p q : LoadedPlugin L} (hp : p ∈ s.plugins) (hq : q ∈ s.plugins)
    (hdesc : p.desc = q.desc) : p = q := by
  have hname : p.name = q.name := by
    have hp' := (h.plugins p hp).2
    have hq' := (h.plugins q hq).2
    rw [hdesc] at hp'
    exact Except.ok.inj (hp'.symm.trans hq')
  exact List.inj_on_of_nodup_map h.names hp hq hname

theorem Inv.refs_pos (h : Inv w s) {desc : Source L} {library : Option (Block L)} (hb : Backed desc library)
    (howned : ∀ b, library = some b → b ∈ s.owners) (ℓ : L) (hdesc : desc = .plugin ℓ) : 0 < s.shares.refs ℓ := by
  subst hdesc
  obtain ⟨b, hlib, rfl⟩ := Option.map_eq_some_iff.mp hb
  exact h.counts.held (howned b hlib)

section Sample

/-- A plugin without an instance to speak of. -/
def samplePlugin : Descriptor Unit Unit where
  descriptor_size := 88
  api_version := 1
  name := some ['x']
  version := none
  length_unit := none
  energy_unit := none
  create := some fun _ => .ok (RGPOT_PLUGIN_OK, some ())
  destroy := some fun _ => ()
  calculate := some fun _ _ => (.ok (RGPOT_PLUGIN_OK, ⟨(), (), fun _ => ()⟩), ())
  capabilities := none
  last_error := none

/-- Every path leads to a library of its own length, and all of them have the same name for their plugin. -/
def sampleWorld : World ℕ Unit Unit where
  dlopen path := some path.length
  init _ := some (.ok (some samplePlugin))
  builtin _ := some { samplePlugin with name := some ['y'] }

/-- Two loads of which the second is refused, and a potential that outlives the registry. -/
def sampleEvents : List Event :=
  [.register_builtin 0, .open "a", .open "bb", .init 0, .init 1, .register 1, .register 0, .finish 0, .finish 0,
    .create ['x'], .created 0 true, .calculate 0, .exit, .calculate 0]

theorem run_sample : ∃ t, run sampleWorld emptyHost sampleEvents = some t := ⟨_, rfl⟩

theorem run_sample_halves : ∃ s t, run sampleWorld emptyHost (sampleEvents.take 8) = some s ∧
    run sampleWorld s ((sampleEvents.drop 8).take 4) = some t ∧ t.exited = false := ⟨_, _, rfl, rfl, rfl⟩

end Sample

section Growth

/-- The creations and the potentials: who retains the library of a registered descriptor. -/
def Host.clients (s : Host L) : List (Client L) := s.creating ++ s.pots

omit [DecidableEq L] in
@[simp] theorem call_exited (desc : Source L) : (s.call desc).exited = s.exited := by
  unfold Host.call
  split
  · rfl
  · split <;> rfl

omit [DecidableEq L] in
@[simp] theorem call_plugins (desc : Source L) : (s.call desc).plugins = s.plugins := by
  unfold Host.call
  split
  · rfl
  · split <;> rfl

omit [DecidableEq L] in
@[simp] theorem call_creating (desc : Source L) : (s.call desc).creating = s.creating := by
  unfold Host.call
  split
  · rfl
  · split <;> rfl

omit [DecidableEq L] in
@[simp] theorem call_pots (desc : Source L) : (s.call desc).pots = s.pots := by
  unfold Host.call
  split
  · rfl
  · split <;> rfl

/-- Plugins are only added, behind the ones that are there, and a new client has the pointer of a registered
plugin. -/
structure Grown (s t : Host L) : Prop where
  exited : s.exited = t.exited
  plugins : s.plugins <+: t.plugins
  clients : ∀ c ∈ t.clients, c ∈ s.clients ∨ ∀ b, c.library = some b → ∃ p ∈ t.plugins, p.library = some b

/-- The plugins are the same, and no client is new. -/
structure Kept (s t : Host L) : Prop where
  exited : s.exited = t.exited
  plugins : s.plugins = t.plugins
  clients : t.clients ⊆ s.clients

omit [DecidableEq L] in
theorem Kept.grown (h : Kept s t) : Grown s t :=
  ⟨h.exited, h.plugins ▸ List.prefix_rfl, fun _ hc => .inl (h.clients hc)⟩

omit [DecidableEq L] in
theorem kept_call (desc : Source L) : Kept s (s.call desc) :=
  ⟨(call_exited desc).symm, (call_plugins desc).symm, by simp [Host.clients]⟩

omit [DecidableEq L] in
theorem grown_init (hstep : initLibrary w s i = some t) : Grown s t := by
  unfold initLibrary at hstep
  split at hstep
  · rename_i block path hi
    split at hstep
    · obtain rfl := Option.some.inj hstep
      exact Kept.grown ⟨rfl, rfl, List.Subset.refl _⟩
    · have hcalled := (kept_call (s := s) (.plugin block.library)).grown
      split at hstep
      · obtain rfl := Option.some.inj hstep
        exact ⟨hcalled.exited, hcalled.plugins, hcalled.clients⟩
      · obtain rfl := Option.some.inj hstep
        exact ⟨hcalled.exited, hcalled.plugins, hcalled.clients⟩
  · cases hstep

theorem grown_register (hstep : registerLibrary s i = some t) : Grown s t := by
  unfold registerLibrary at hstep
  split at hstep
  · split at hstep
    · obtain rfl := Option.some.inj hstep
      exact Kept.grown ⟨rfl, rfl, List.Subset.refl _⟩
    · obtain rfl := Option.some.inj hstep
      exact ⟨rfl, List.prefix_append _ _, fun _ hc => .inl hc⟩
  · cases hstep

omit [DecidableEq L] in
theorem grown_register_builtin {n : ℕ} (hstep : register_builtin w s n = some t) : Grown s t := by
  unfold register_builtin at hstep
  split at hstep
  · cases hstep
  · split at hstep
    · cases hstep
    · obtain rfl := Option.some.inj hstep
      exact ⟨rfl, List.prefix_append _ _, fun _ hc => .inl hc⟩

theorem grown_create {name : Text} (hstep : startCreate s name = some t) : Grown s t := by
  unfold startCreate at hstep
  split at hstep
  · cases hstep
  · obtain rfl := Option.some.inj hstep
    refine ⟨rfl, List.prefix_rfl, fun c hc => ?_⟩
    rcases List.mem_cons.mp hc with rfl | hc
    · refine .inr fun b hb => ?_
      obtain ⟨p, hp, hlib⟩ := Option.bind_eq_some_iff.mp hb
      exact ⟨p, List.mem_of_find?_eq_some hp, hlib⟩
    · exact .inl hc

theorem grown_created {ok : Bool} (hstep : finishCreate s i ok = some t) : Grown s t := by
  unfold finishCreate at hstep
  split at hstep
  · cases hstep
  · rename_i client hi
    have herased : ∀ c ∈ s.creating.eraseIdx i, c ∈ s.creating := fun _ => List.mem_of_mem_eraseIdx
    split at hstep
    · obtain rfl := Option.some.inj hstep
      refine Kept.grown ⟨(call_exited _).symm, (call_plugins _).symm, fun c hc => ?_⟩
      -- the potential is the creation's client
      simp only [Host.clients, call_creating, call_pots, List.mem_append, List.mem_cons] at hc ⊢
      rcases hc with hc | rfl | hc
      · exact .inl (herased c hc)
      · exact .inl (List.mem_of_getElem? hi)
      · exact .inr hc
    · obtain rfl := Option.some.inj hstep
      refine Kept.grown ⟨(call_exited _).symm, (call_plugins _).symm, fun c hc => ?_⟩
      simp only [Host.clients, Host.release, call_creating, call_pots, List.mem_append] at hc ⊢
      exact hc.imp_left (herased c)

theorem kept_destroy (hstep : destroyPot s i = some t) : Kept s t := by
  unfold destroyPot at hstep
  split at hstep
  · cases hstep
  · obtain rfl := Option.some.inj hstep
    refine ⟨(call_exited _).symm, (call_plugins _).symm, fun c hc => ?_⟩
    simp only [Host.clients, Host.release, call_creating, call_pots, List.mem_append] at hc ⊢
    exact hc.imp_right List.mem_of_mem_eraseIdx

omit [DecidableEq L] in
theorem kept_calculate (hstep : calculate s i = some t) : Kept s t := by
  obtain ⟨pot, -, rfl⟩ := Option.map_eq_some_iff.mp hstep
  exact kept_call _

/-- Once the program has ended, potentials are only called and destroyed. -/
theorem kept_ended {e : Event} (hexited : s.exited = true) (hstep : step w s e = some t) : Kept s t := by
  cases e with
  | calculate i => exact kept_calculate hstep
  | destroy i => exact kept_destroy hstep
  | _ => simp [step, hexited] at hstep

/-- Every step but the end of the program. -/
theorem grown_step {e : Event} (hstep : step w s e = some t) (hexit : e ≠ .exit) : Grown s t := by
  cases e with
  | «open» path =>
    obtain rfl := Option.some.inj (running hstep)
    unfold openLibrary
    split <;> exact Kept.grown ⟨rfl, rfl, List.Subset.refl _⟩
  | init i => exact grown_init (running hstep)
  | register i => exact grown_register (running hstep)
  | finish i =>
    have hfinish := running hstep
    simp only [finishLoad] at hfinish
    split at hfinish
    · obtain rfl := Option.some.inj hfinish
      exact Kept.grown ⟨rfl, rfl, List.Subset.refl _⟩
    · cases hfinish
  | register_builtin n => exact grown_register_builtin (running hstep)
  | create name => exact grown_create (running hstep)
  | created i ok => exact grown_created (running hstep)
  | calculate i => exact (kept_calculate hstep).grown
  | destroy i => exact (kept_destroy hstep).grown
  | exit => exact absurd rfl hexit

theorem exited_exitProgram (hstep : exitProgram s = some t) :
    t.exited = true ∧ t.plugins = [] ∧ t.clients = s.clients := by
  unfold exitProgram at hstep
  split at hstep
  · obtain rfl := Option.some.inj hstep
    exact ⟨rfl, rfl, rfl⟩
  · cases hstep

theorem grown_run {es : List Event} (hrun : run w s es = some t) (hexited : t.exited = false) :
    s.exited = t.exited ∧ s.plugins <+: t.plugins := by
  induction es generalizing s with
  | nil =>
    obtain rfl := Option.some.inj hrun
    exact ⟨rfl, List.prefix_rfl⟩
  | cons e es ih =>
    obtain ⟨u, hstep, hrest⟩ := Option.bind_eq_some_iff.mp hrun
    obtain ⟨hu, hplugins⟩ := ih hrest
    have hexit : e ≠ .exit := by
      rintro rfl
      have hexit : exitProgram s = some u := running hstep
      have hended := (exited_exitProgram hexit).1
      rw [hu, hexited] at hended
      cases hended
    have hgrown := grown_step hstep hexit
    exact ⟨hgrown.exited.trans hu, hgrown.plugins.trans hplugins⟩

end Growth

omit [DecidableEq L] in
/-- A plugin that is found stays found, whatever is added behind. -/
theorem find_of_prefix (h : s.plugins <+: t.plugins) {name : Text} {p : LoadedPlugin L}
    (hfind : s.find name = some p) : t.find name = some p := by
  obtain ⟨more, hplugins⟩ := h
  rw [Host.find] at hfind ⊢
  rw [← hplugins, List.find?_append, hfind, Option.some_or]

section Sharing

/-- The registry and all clients of a library have the same pointer: a client has the one of a registered plugin,
or of one that was registered when the program ended. -/
structure Shared (s : Host L) : Prop where
  registered : s.exited = false →
    ∀ c ∈ s.clients, ∀ b, c.library = some b → ∃ p ∈ s.plugins, p.library = some b
  ended : s.exited = true → s.plugins = []
  one : s.exited = true → ∀ c ∈ s.clients, ∀ d ∈ s.clients, ∀ b b', c.library = some b → d.library = some b' →
    b.library = b'.library → b = b'

omit [DecidableEq L] in
theorem shared_empty : Shared (emptyHost : Host L) := ⟨fun _ => nofun, fun _ => rfl, fun _ => nofun⟩

omit [DecidableEq L] in
theorem Backed.desc_eq {desc : Source L} {library : Option (Block L)} (h : Backed desc library) {b : Block L}
    (hb : library = some b) : desc = .plugin b.library := by
  subst hb
  cases desc with
  | builtin n => exact absurd h nofun
  | plugin ℓ => exact congrArg Source.plugin (Option.some.inj h).symm

/-- Two plugins of one library are one. -/
theorem Inv.block_unique (h : Inv w s) {p q : LoadedPlugin L} (hp : p ∈ s.plugins) (hq : q ∈ s.plugins)
    {b b' : Block L} (hb : p.library = some b) (hb' : q.library = some b') (heq : b.library = b'.library) : b = b' := by
  have hpdesc := (h.plugins p hp).1.desc_eq hb
  have hqdesc := (h.plugins q hq).1.desc_eq hb'
  obtain rfl := h.eq_of_desc hp hq (by rw [hpdesc, hqdesc, heq])
  exact Option.some.inj (hb.symm.trans hb')

theorem shared_step {e : Event} (h : Inv w s) (hs : Shared s) (hstep : step w s e = some t) : Shared t := by
  by_cases hexit : e = .exit
  · subst hexit
    have hrunning : s.exited = false := by
      cases hexited : s.exited with
      | false => rfl
      | true => simp [step, hexited] at hstep
    have hexit : exitProgram s = some t := running hstep
    obtain ⟨hexited, hplugins, hclients⟩ := exited_exitProgram hexit
    refine ⟨fun hfalse => absurd (hexited.symm.trans hfalse) nofun, fun _ => hplugins, fun _ => ?_⟩
    rw [hclients]
    intro c hc d hd b b' hb hb'
    obtain ⟨p, hp, hpb⟩ := hs.registered hrunning c hc b hb
    obtain ⟨q, hq, hqb⟩ := hs.registered hrunning d hd b' hb'
    exact h.block_unique hp hq hpb hqb
  · have hgrown := grown_step hstep hexit
    refine ⟨fun hexited c hc b hb => ?_, fun hexited => ?_, fun hexited => ?_⟩
    · rcases hgrown.clients c hc with hold | hnew
      · obtain ⟨p, hp, hpb⟩ := hs.registered (hgrown.exited.trans hexited) c hold b hb
        exact ⟨p, hgrown.plugins.subset hp, hpb⟩
      · exact hnew b hb
    · have hended := hgrown.exited.trans hexited
      exact (kept_ended hended hstep).plugins.symm.trans (hs.ended hended)
    · have hended := hgrown.exited.trans hexited
      have hclients := (kept_ended hended hstep).clients
      exact fun c hc d hd => hs.one hended c (hclients hc) d (hclients hd)

theorem shared_run {es : List Event} (h : Inv w s) (hs : Shared s) (hrun : run w s es = some t) : Shared t := by
  induction es generalizing s with
  | nil =>
    obtain rfl := Option.some.inj hrun
    exact hs
  | cons e es ih =>
    obtain ⟨u, hstep, hrest⟩ := Option.bind_eq_some_iff.mp hrun
    exact ih (inv_step h hstep) (shared_step h hs hstep) hrest

/-- The pointers of the registry and of the clients, with their descriptors. -/
def Host.holders (s : Host L) : List (Client L) :=
  (s.plugins.map fun p => ⟨p.desc, p.library⟩) ++ s.clients

theorem Inv.holders (h : Inv w s) {c : Client L} (hc : c ∈ s.holders) : Backed c.desc c.library := by
  rcases List.mem_append.mp hc with hc | hc
  · obtain ⟨p, hp, rfl⟩ := List.mem_map.mp hc
    exact (h.plugins p hp).1
  · rcases List.mem_append.mp hc with hc | hc
    · exact h.creating c hc
    · exact h.pots c hc

/-- Whoever holds a library has the same pointer. -/
theorem Inv.one_block (h : Inv w s) (hs : Shared s) {c d : Client L} (hc : c ∈ s.holders) (hd : d ∈ s.holders)
    {b b' : Block L} (hb : c.library = some b) (hb' : d.library = some b') (heq : b.library = b'.library) :
    b = b' := by
  have hregistered : s.exited = false → ∀ c ∈ s.holders, ∀ b, c.library = some b →
      ∃ p ∈ s.plugins, p.library = some b := by
    intro hexited c hc b hb
    rcases List.mem_append.mp hc with hc | hc
    · obtain ⟨p, hp, rfl⟩ := List.mem_map.mp hc
      exact ⟨p, hp, hb⟩
    · exact hs.registered hexited c hc b hb
  cases hexited : s.exited with
  | false =>
    obtain ⟨p, hp, hpb⟩ := hregistered hexited c hc b hb
    obtain ⟨q, hq, hqb⟩ := hregistered hexited d hd b' hb'
    exact h.block_unique hp hq hpb hqb heq
  | true =>
    rw [Host.holders, hs.ended hexited] at hc hd
    exact hs.one hexited c hc d hd b b' hb hb' heq

/-- With no call under way a library has one reference for all its holders. -/
theorem Inv.refs_idle (h : Inv w s) (hs : Shared s) (hloading : s.loading = []) (ℓ : L) :
    s.shares.refs ℓ = if ∃ c ∈ s.holders, c.desc = .plugin ℓ then 1 else 0 := by
  have howner : ∀ b, b ∈ s.owners ↔ ∃ c ∈ s.holders, c.library = some b := by
    intro b
    simp only [Host.owners, Host.holders, Host.clients, hloading, List.map_nil, List.nil_append, List.mem_append,
      List.mem_filterMap, List.mem_map]
    constructor
    · rintro ((⟨p, hp, hb⟩ | ⟨c, hc, hb⟩) | ⟨c, hc, hb⟩)
      · exact ⟨⟨p.desc, p.library⟩, .inl ⟨p, hp, rfl⟩, hb⟩
      · exact ⟨c, .inr (.inl hc), hb⟩
      · exact ⟨c, .inr (.inr hc), hb⟩
    · rintro ⟨c, ⟨p, hp, rfl⟩ | hc | hc, hb⟩
      · exact .inl (.inl ⟨p, hp, hb⟩)
      · exact .inl (.inr ⟨c, hc, hb⟩)
      · exact .inr ⟨c, hc, hb⟩
  rw [h.counts.refs]
  by_cases hex : ∃ c ∈ s.holders, c.desc = .plugin ℓ
  · obtain ⟨c, hc, hdesc⟩ := hex
    obtain ⟨b, hlib, hb⟩ := Option.map_eq_some_iff.mp ((h.holders hc).trans (congrArg Source.library hdesc))
    have hone : s.owners.toFinset.filter (·.library = ℓ) = {b} := by
      refine Finset.eq_singleton_iff_unique_mem.mpr ⟨?_, fun b' hb' => ?_⟩
      · rw [Finset.mem_filter, List.mem_toFinset, howner]
        exact ⟨⟨c, hc, hlib⟩, hb⟩
      · rw [Finset.mem_filter, List.mem_toFinset, howner] at hb'
        obtain ⟨⟨d, hd, hdlib⟩, hℓ⟩ := hb'
        exact h.one_block hs hd hc hdlib hlib (hℓ.trans hb.symm)
    rw [if_pos ⟨c, hc, hdesc⟩, hone, Finset.card_singleton]
  · rw [if_neg hex, Finset.card_eq_zero, Finset.filter_eq_empty_iff]
    intro b hb hℓ
    obtain ⟨c, hc, hlib⟩ := (howner b).mp (List.mem_toFinset.mp hb)
    exact hex ⟨c, hc, ((h.holders hc).desc_eq hlib).trans (congrArg Source.plugin hℓ)⟩

end Sharing

/-- In every run no function of a plugin is called while its library is not mapped, the libraries of registered
descriptors and of live potentials are mapped, and once no call is under way a library has one reference if a
descriptor of it is registered or a potential of it lives, and none when it was refused or all of these are gone. -/
theorem no_dangling_call {es : List Event} (hrun : run w emptyHost es = some t) :
    t.dangling = [] ∧ (∀ p ∈ t.plugins, ∀ ℓ, p.desc = .plugin ℓ → 0 < t.shares.refs ℓ) ∧
      (∀ c ∈ t.pots, ∀ ℓ, c.desc = .plugin ℓ → 0 < t.shares.refs ℓ) ∧
      (t.loading = [] → t.creating = [] → ∀ ℓ, t.shares.refs ℓ =
        if (∃ p ∈ t.plugins, p.desc = .plugin ℓ) ∨ ∃ c ∈ t.pots, c.desc = .plugin ℓ then 1 else 0) := by
  have h := inv_run inv_empty hrun
  have hs := shared_run inv_empty shared_empty hrun
  refine ⟨h.dangling, fun p hp ℓ => h.refs_pos (h.plugins p hp).1 (fun b hb => ?_) ℓ,
    fun c hc ℓ => h.refs_pos (h.pots c hc) (fun b hb => ?_) ℓ, fun hloading hcreating ℓ => ?_⟩
  · exact mem_owners_of_plugin hp hb
  · exact List.mem_append_right _ (List.mem_filterMap.mpr ⟨c, hc, hb⟩)
  · rw [h.refs_idle hs hloading]
    simp only [Host.holders, Host.clients, hcreating, List.nil_append, List.mem_append, List.mem_map, or_and_right,
      exists_or, exists_exists_and_eq_and]

theorem no_dangling_call_sample : ∃ t, run sampleWorld emptyHost sampleEvents = some t ∧ (t.dangling = [] ∧
    (∀ p ∈ t.plugins, ∀ ℓ, p.desc = .plugin ℓ → 0 < t.shares.refs ℓ) ∧
      (∀ c ∈ t.pots, ∀ ℓ, c.desc = .plugin ℓ → 0 < t.shares.refs ℓ) ∧
        (t.loading = [] → t.creating = [] → ∀ ℓ, t.shares.refs ℓ =
          if (∃ p ∈ t.plugins, p.desc = .plugin ℓ) ∨ ∃ c ∈ t.pots, c.desc = .plugin ℓ then 1 else 0)) := by
  obtain ⟨t, hrun⟩ := run_sample
  exact ⟨t, hrun, no_dangling_call hrun⟩


/-- Whatever happens between, a name that has been found leads to the same plugin as long as the program runs,
the first that was registered under it, and no name is listed twice. -/
theorem find_stable {es es' : List Event} (hs : run w emptyHost es = some s) (ht : run w s es' = some t)
    (hexited : t.exited = false) : t.list_plugins.Nodup ∧ s.list_plugins <+: t.list_plugins ∧
      ∀ name p, s.find name = some p → t.find name = some p := by
  have h := inv_run (inv_run inv_empty hs) ht
  obtain ⟨-, hplugins⟩ := grown_run ht hexited
  exact ⟨h.names, hplugins.map LoadedPlugin.name, fun name p hfind => find_of_prefix hplugins hfind⟩

theorem find_stable_sample : ∃ s t, run sampleWorld emptyHost (sampleEvents.take 8) = some s ∧
    run sampleWorld s ((sampleEvents.drop 8).take 4) = some t ∧ (t.list_plugins.Nodup ∧
      s.list_plugins <+: t.list_plugins ∧ ∀ name p, s.find name = some p → t.find name = some p) := by
  obtain ⟨s, t, hs, ht, hexited⟩ := run_sample_halves
  exact ⟨s, t, hs, ht, find_stable hs ht hexited⟩

end Invariant

end Rgpot.Plugin
