import Rgpot.Cpmd.Lifecycle
import Rgpot.NWChem.Impl

/-! Parameters an engine rejects: what a `CPMDPot` or a `NWChemPot` keeps of them. -/
namespace Rgpot.Cpmd
open Rgpot.Cache (Str Config)

variable {i j : Impl} {g : Shared} {a : Answers}

namespace Impl

/-- The message `getParams` writes, as it is serialized. -/
def getParams (i : Impl) : Str := i.params_words

def paramsKey (i : Impl) : UInt64 := i.params_key

def available (i : Impl) : Bool :=
  i.bundle.loaded && (if i.bundle.has_session_result_abi then i.session.isSome
    else i.bundle.energy_gradient.isSome && i.bundle.set_params.isSome)

/-- The parameters the next force call is computed with: those of the live session, or the ones handed
to the one-shot interface; none when it throws. -/
def forceParams (i : Impl) : Option (List UInt8) :=
  if i.available then
    if i.bundle.has_session_result_abi then some i.session_params else some i.params_words.bytes
  else none

/-- What a caller can see of the parameters. -/
structure Unchanged (i j : Impl) : Prop where
  getParams : j.getParams = i.getParams
  paramsKey : j.paramsKey = i.paramsKey
  available : j.available = i.available
  forceParams : j.forceParams = i.forceParams

/-- `CPMDPot::setPotentialConfig`, with its message. -/
def setPotentialConfig (params_summary : CPMDParams → String) (a : Answers) (cfg : PotentialConfig)
    (i : Impl) (g : Shared) : Except String (Bool × String) × Impl × Shared :=
  match cfg with
  | .none => (.ok (true, "no-op (rgpot params: none)"), i, g)
  | .cpmd cp =>
    let (r, i, g) := i.setParams a cp g
    let sum := params_summary cp
    (r.map fun ok => (ok,
      if ok then "rgpot params applied (cpmd arm): " ++ sum
      else if !i.available then "rgpot params cpmd arm failed (engine not loaded): " ++ sum
      else "rgpot params cpmd arm rejected by embed: " ++ sum), i, g)
  | .nwchem _ | .metatomic | .lammps =>
    (.ok (false, "rgpot params arm not handled by CPMDPot (use matching backend pot)"), i, g)

/-- The state `setParams` asks the engine in: everything is stored already, and a new path has
replaced the engine. -/
def prepared (a : Answers) (params : CPMDParams) (i : Impl) : Impl :=
  let need_reload := ¬ i.bundle.loaded ∨ params.enginePath ≠ i.engine_path
  let i := { i with params_words := params.words }.recomputeParamsKey
  let i := { i with engine_path := params.enginePath }
  if need_reload then { i.destroySession with bundle := .try_load_engine a i.engine_path } else i

theorem setParams_eq (i : Impl) (params : CPMDParams) (g : Shared) : i.setParams a params g =
    if (i.prepared a params).bundle.loaded then (i.prepared a params).configure a g
    else (.ok false, i.prepared a params, g) := rfl

theorem prepared_frame (i : Impl) (params : CPMDParams) :
    (i.prepared a params).params_words = params.words ∧
      (i.prepared a params).engine_path = params.enginePath ∧
      (i.prepared a params).params_key = (Config.cpmd params.words).paramsKey := by
  unfold prepared
  simp only
  split
  · refine ⟨rfl, rfl, ?_⟩
    simp only [destroySession, recomputeParamsKey]
  · refine ⟨rfl, rfl, ?_⟩
    simp only [recomputeParamsKey]

/-- The engine is loaded and bound to its calculator, and says no to the parameters. -/
structure EngineRejects (a : Answers) (params : CPMDParams) (i : Impl) (g : Shared) : Prop where
  loaded : (i.prepared a params).bundle.loaded = true
  bound : (g.register_engine_adopter a (i.prepared a params).bundle).1 = .ok true
  refused : ((i.prepared a params).applyParams a).1 = false

/-- What a refusal leaves: no session, and everything else as it was prepared. -/
theorem applyParams_refused (h : (i.applyParams a).1 = false) :
    (i.applyParams a).2.session = none ∧ (i.applyParams a).2.bundle = i.bundle ∧
      (i.applyParams a).2.params_words = i.params_words ∧
      (i.applyParams a).2.engine_path = i.engine_path ∧
      (i.applyParams a).2.params_key = i.params_key := by
  unfold applyParams at h ⊢
  split at h
  · next habi =>
    simp only [habi, if_true] at h ⊢
    split at h
    · cases h
    · next hnew =>
      rw [if_neg hnew]
      unfold createSession at h ⊢
      cases hlib : i.destroySession.bundle.session_create with
      | none => exact ⟨rfl, rfl, rfl, rfl, rfl⟩
      | some lib =>
        simp only [hlib] at h ⊢
        cases hanswer : a.session_create with
        | false => exact ⟨rfl, rfl, rfl, rfl, rfl⟩
        | true =>
          rw [hanswer] at h
          simp at h
  · next habi =>
    rw [if_neg habi]
    exact ⟨rfl, rfl, rfl, rfl, rfl⟩

/-- A rejection returns false with the parameters prepared for the engine still stored. -/
theorem setParams_rejected {params : CPMDParams} (h : EngineRejects a params i g) :
    (i.setParams a params g).1 = .ok false ∧
      (i.setParams a params g).2.1 = ((i.prepared a params).applyParams a).2 := by
  rw [setParams_eq, if_pos h.loaded]
  have hbound := h.bound
  unfold configure
  cases hreg : g.register_engine_adopter a (i.prepared a params).bundle with
  | mk answer g' =>
    rw [hreg] at hbound
    subst hbound
    exact ⟨congrArg Except.ok h.refused, rfl⟩

/-- A rejected message leaves what a caller sees exactly when it is the stored one and no session was
live. -/
theorem unchanged_rejected_iff {params : CPMDParams} (hloaded : i.bundle.loaded = true)
    (hkey : i.params_key = (Config.cpmd i.params_words).paramsKey)
    (hpath : params.words = i.params_words → params.enginePath = i.engine_path)
    (h : EngineRejects a params i g) :
    i.Unchanged (i.setParams a params g).2.1 ↔
      params.words = i.params_words ∧
        (i.bundle.has_session_result_abi = true → i.session = none) := by
  obtain ⟨hsession, hbundle, hwords, -, hkey'⟩ := applyParams_refused h.refused
  rw [(setParams_rejected h).2]
  generalize ((i.prepared a params).applyParams a).2 = j at hsession hbundle hwords hkey'
  obtain ⟨hprepared, -, hpreparedKey⟩ := i.prepared_frame (a := a) params
  rw [hprepared] at hwords
  rw [hpreparedKey] at hkey'
  have hkept : params.words = i.params_words → j.bundle = i.bundle := by
    intro hsame
    rw [hbundle, prepared]
    rw [if_neg (by simp [hloaded, hpath hsame])]
    rfl
  have havailable : ∀ k : Impl, k.bundle = i.bundle → k.available =
      (if i.bundle.has_session_result_abi then k.session.isSome
        else i.bundle.energy_gradient.isSome && i.bundle.set_params.isSome) := by
    intro k hk
    simp only [available, hk, hloaded, Bool.true_and]
  constructor
  · intro hsame
    have hstored : params.words = i.params_words := hwords.symm.trans hsame.getParams
    refine ⟨hstored, fun habi => ?_⟩
    have hsee := hsame.available
    rw [havailable j (hkept hstored), havailable i rfl, if_pos habi, if_pos habi, hsession] at hsee
    exact Option.isNone_iff_eq_none.mp (by simpa using hsee.symm)
  · rintro ⟨hstored, hnone⟩
    have hb := hkept hstored
    have hsee : j.available = i.available := by
      rw [havailable j hb, havailable i rfl]
      split
      · next habi => rw [hsession, hnone habi]
      · rfl
    refine ⟨hwords.trans hstored, ?_, hsee, ?_⟩
    · rw [paramsKey, hkey', hstored]
      exact hkey.symm
    · unfold forceParams
      rw [hsee, hb, hwords, hstored]
      cases hav : i.available with
      | false => rfl
      | true =>
        by_cases habi : i.bundle.has_session_result_abi = true
        · rw [havailable i rfl, if_pos habi, hnone habi] at hav
          cases hav
        · simp [habi]

end Impl

section Runs

/-- The message of an event carries its engine path, read back by `enginePathOf`. -/
def Event.Carries (enginePathOf : Str → String) : Event → Prop
  | .construct _ words engine_path => engine_path = enginePathOf words
  | .setParams _ _ params => params.enginePath = enginePathOf params.words
  | .destroy _ | .calculators _ => True

theorem Impl.applyParams_frame (i : Impl) : (i.applyParams a).2.params_words = i.params_words ∧
    (i.applyParams a).2.engine_path = i.engine_path := by
  unfold applyParams
  split
  · split
    · exact ⟨rfl, rfl⟩
    · exact ⟨(createSession_frame i.destroySession).1, (createSession_frame i.destroySession).2.1⟩
  · exact ⟨rfl, rfl⟩

theorem Impl.configure_frame (i : Impl) (g : Shared) :
    (i.configure a g).2.1.params_words = i.params_words ∧
      (i.configure a g).2.1.engine_path = i.engine_path := by
  unfold configure
  split
  · exact ⟨rfl, rfl⟩
  · exact ⟨rfl, rfl⟩
  · exact applyParams_frame i

/-- The message and the path of the last call are stored together. -/
theorem Impl.setParams_frame (i : Impl) (params : CPMDParams) (g : Shared) :
    (i.setParams a params g).2.1.params_words = params.words ∧
      (i.setParams a params g).2.1.engine_path = params.enginePath := by
  obtain ⟨hwords, hpath, -⟩ := i.prepared_frame (a := a) params
  rw [setParams_eq, ← hwords, ← hpath]
  split
  · exact configure_frame _ g
  · exact ⟨rfl, rfl⟩

theorem Impl.construct_frame (words : Str) (engine_path : String) (g : Shared) :
    (construct a words engine_path g).2.1.params_words = words ∧
      (construct a words engine_path g).2.1.engine_path = engine_path := by
  unfold construct
  simp only
  split
  · exact configure_frame _ g
  · exact ⟨rfl, rfl⟩

variable {w : Calculators.World} {p : Process} {enginePathOf : Str → String}

/-- Every potential's path is the one its stored message carries. -/
def Process.Carrying (enginePathOf : Str → String) (p : Process) : Prop :=
  ∀ pot ∈ p.pots, pot.impl.engine_path = enginePathOf pot.impl.params_words

theorem Process.Carrying.step (h : p.Carrying enginePathOf) {e : Event}
    (he : e.Carries enginePathOf) : (p.step w e).Carrying enginePathOf := by
  intro pot hpot
  cases e with
  | construct a words engine_path =>
    obtain ⟨hwords, hpath⟩ := Impl.construct_frame (a := a) words engine_path p.shared
    simp only [Process.step] at hpot
    generalize Impl.construct a words engine_path p.shared = r at hpot hwords hpath
    rcases List.mem_append.mp hpot with hpot | hpot
    · exact h pot hpot
    · rw [List.mem_singleton.mp hpot, hwords, hpath]
      exact he
  | setParams a k params =>
    simp only [Process.step] at hpot
    split at hpot
    · next i hk =>
      rcases List.mem_or_eq_of_mem_set hpot with hpot | rfl
      · exact h pot hpot
      · obtain ⟨hwords, hpath⟩ := i.setParams_frame (a := a) params p.shared
        simp only [hwords, hpath]
        exact he
    · exact h pot hpot
  | destroy k =>
    simp only [Process.step] at hpot
    split at hpot
    · next i hk =>
      rcases List.mem_or_eq_of_mem_set hpot with hpot | rfl
      · exact h pot hpot
      · have hpath := h ⟨i, true⟩ (List.mem_of_getElem? hk)
        exact hpath
    · exact h pot hpot
  | calculators e => exact h pot hpot

theorem Process.carrying_run {es : List Event} (hes : ∀ e ∈ es, e.Carries enginePathOf) :
    (run w es).Carrying enginePathOf := by
  induction es using List.reverseRecOn with
  | nil =>
    intro pot hpot
    cases hpot
  | append_singleton es e ih =>
    rw [run, List.foldl_append]
    exact (ih fun e' he' => hes e' (List.mem_append_left _ he')).step
      (hes e (List.mem_append_right _ List.mem_cons_self))

end Runs

/-- After a call whose parameters the engine rejects, a caller sees what it saw before exactly when the
message is the stored one and, for CPMD, no session was live. -/
theorem rejected_unchanged_iff (enginePathOf : Str → String) (summary : CPMDParams → String) :
    (∀ (a : NWChem.Answers) (i : NWChem.Impl) (cfg : PotentialConfig), i.bundle.loaded = true →
      (i.setPotentialConfig a cfg).1 = false →
      (i.Unchanged (i.setPotentialConfig a cfg).2.2 ↔
        ∀ params, cfg = .nwchem params → params = i.params_words)) ∧
    ∀ (w : Calculators.World) (es : List Event) (k : ℕ) (i : Impl) (a : Answers) (params : CPMDParams),
      (∀ e ∈ es, e.Carries enginePathOf) → params.enginePath = enginePathOf params.words →
      (Process.run w es).pots[k]? = some ⟨i, true⟩ → i.bundle.loaded = true →
      i.EngineRejects a params (Process.run w es).shared →
      (i.Unchanged (i.setPotentialConfig summary a (.cpmd params) (Process.run w es).shared).2.1 ↔
        params.words = i.params_words ∧
          (i.bundle.has_session_result_abi = true → i.session = none)) := by
  constructor
  · intro a i cfg hloaded _
    exact NWChem.Impl.unchanged_setPotentialConfig_iff hloaded a cfg
  · intro w es k i a params hes hparams hk hloaded hrejects
    have hmem := List.mem_of_getElem? hk
    have hkey := ((Process.good_run es).current _ hmem rfl).key
    have hcarried : i.engine_path = enginePathOf i.params_words := Process.carrying_run hes _ hmem
    refine Impl.unchanged_rejected_iff hloaded hkey (fun hwords => ?_) hrejects
    rw [hparams, hcarried, hwords]

section Examples
open Process

/-- The engine of `willing`, but it makes no session. -/
def refusing : Answers := { willing with session_create := false }

def otherMessage : Str := ⟨[1, 2, 3], by decide⟩

/-- A live session, and an engine that refuses another message. -/
theorem rejected_unchanged_iff_refusing : ∃ i,
    (run ⟨1, 0, by decide⟩ [.construct willing message ""]).pots[0]? = some ⟨i, true⟩ ∧
      (i.Unchanged (i.setPotentialConfig (fun _ => "") refusing (.cpmd ⟨otherMessage, ""⟩)
        (run ⟨1, 0, by decide⟩ [.construct willing message ""]).shared).2.1 ↔
        otherMessage = i.params_words ∧
          (i.bundle.has_session_result_abi = true → i.session = none)) := by
  refine ⟨_, rfl, ?_⟩
  refine (rejected_unchanged_iff (fun _ => "") fun _ => "").2 ⟨1, 0, by decide⟩
    [.construct willing message ""] 0 _ refusing ⟨otherMessage, ""⟩ ?_ rfl rfl rfl
    ⟨rfl, rfl, rfl⟩
  intro e he
  rw [List.mem_singleton.mp he]
  rfl

/-- A NWChem engine that takes no parameters. -/
def stubborn : NWChem.Answers where
  getenv _ := none
  dlopen _ := .ok ⟨1, [.energy_gradient, .set_params]⟩
  set_params _ := false

/-- Neither potential keeps what a caller sees over a rejected configuration. -/
theorem not_rejected_unchanged :
    (¬ ∀ (a : NWChem.Answers) (i : NWChem.Impl) (params : NWChemParams), i.bundle.loaded = true →
      (i.setPotentialConfig a (.nwchem params)).1 = false →
      i.Unchanged (i.setPotentialConfig a (.nwchem params)).2.2) ∧
    ¬ ∀ (summary : CPMDParams → String) (w : Calculators.World) (es : List Event) (k : ℕ) (i : Impl)
      (a : Answers) (params : CPMDParams), (run w es).pots[k]? = some ⟨i, true⟩ →
      i.bundle.loaded = true → i.EngineRejects a params (run w es).shared →
      i.Unchanged (i.setPotentialConfig summary a (.cpmd params) (run w es).shared).2.1 := by
  constructor
  · intro h
    have hsame := h stubborn (.construct stubborn {}) { basis := "6-31g*" } rfl rfl
    exact absurd hsame.getParams (by decide)
  · intro h
    have hsame := h (fun _ => "") ⟨1, 0, by decide⟩ [.construct willing message ""] 0 _ refusing
      ⟨otherMessage, ""⟩ rfl rfl ⟨rfl, rfl, rfl⟩
    have hwords : otherMessage = message := hsame.getParams
    exact absurd hwords (by decide)

end Examples
end Rgpot.Cpmd
