import Rgpot.Calculators.Acceptance
import Rgpot.Cpmd.Impl

/-! Sessions over the life of CPMD potentials: what a live session was created from, and who destroys
it. -/
namespace Rgpot.Cpmd
open Rgpot.Cache (Str Config)

/-- The sessions created, with the library of each. -/
def creations (calls : List EngineCall) : List (ℕ × Library) :=
  calls.filterMap fun
    | .create lib _ _ (some session) => some (session, lib)
    | _ => none

/-- The sessions destroyed, with the library asked to do it. -/
def destructions (calls : List EngineCall) : List (ℕ × Library) :=
  calls.filterMap fun
    | .destroy lib session => some (session, lib)
    | _ => none

variable {i j : Impl} {g g' : Shared} {a : Answers} {s : ℕ} {lib : Library} {b : EngineBundle}

@[simp] theorem creations_append (c d : List EngineCall) :
    creations (c ++ d) = creations c ++ creations d := List.filterMap_append

@[simp] theorem destructions_append (c d : List EngineCall) :
    destructions (c ++ d) = destructions c ++ destructions d := List.filterMap_append

section Calls
variable (lib : Library) (params : Str) (engine_path : String) (session : Option ℕ) (n : ℕ)

@[simp] theorem creations_failed :
    creations [.create lib params engine_path none] = [] := rfl

@[simp] theorem creations_created :
    creations [.create lib params engine_path (some n)] = [(n, lib)] := rfl

@[simp] theorem creations_destroy : creations [.destroy lib n] = [] := rfl

@[simp] theorem destructions_create :
    destructions [.create lib params engine_path session] = [] := rfl

@[simp] theorem destructions_destroy : destructions [.destroy lib n] = [(n, lib)] := rfl

end Calls

/-- The adopter of the bundle's engine is kept open and registered. -/
def EngineBundle.Adopted (b : EngineBundle) (g : Shared) : Prop :=
  ∀ callback, b.adopt_comm = some callback →
    callback ∈ g.engines ∧ callback ∈ g.calculators.adopters

section Register

/-- Nothing is unregistered, and no engine that is kept open is closed. -/
structure Shared.Grows (g g' : Shared) : Prop where
  engines : g.engines ⊆ g'.engines
  adopters : g.calculators.adopters ⊆ g'.calculators.adopters

theorem Shared.Grows.refl (g : Shared) : g.Grows g :=
  ⟨List.Subset.refl _, List.Subset.refl _⟩

theorem EngineBundle.Adopted.grows (h : b.Adopted g) (hg : g.Grows g') : b.Adopted g' := by
  intro callback hcallback
  exact ⟨hg.engines (h callback hcallback).1, hg.adopters (h callback hcallback).2⟩

theorem mem_adopters_of_accepted {p : Calculators.Process ℕ ℕ} {callback : ℕ} {answer : ℤ}
    (h : (p.addCalculatorCommAdopter (some callback) answer).1 = true) :
    callback ∈ (p.addCalculatorCommAdopter (some callback) answer).2.adopters := by
  by_cases hmem : callback ∈ p.adopters
  · exact (Calculators.Process.addCalculatorCommAdopter_registers _ _ _).adopters_subset hmem
  by_cases hlate : p.bound = true ∧ p.group.index < 0
  · simp [Calculators.Process.addCalculatorCommAdopter, hmem, hlate] at h
  have hreg := Calculators.Process.addCalculatorCommAdopter_registers p callback answer
  generalize (p.addCalculatorCommAdopter (some callback) answer).2 = q at hreg
  cases hreg with
  | again hagain => exact hagain
  | late hb hi => exact absurd ⟨hb, hi⟩ hlate
  | _ => simp [Calculators.Process.refuse]

/-- Registering an engine only adds to what is shared. A yes means its adopter is registered, and an
engine that is registered already is never refused by an exception. -/
theorem register_engine_adopter_spec (a : Answers) (b : EngineBundle) (g : Shared) :
    g.Grows (g.register_engine_adopter a b).2 ∧
      ((g.register_engine_adopter a b).1 = .ok true →
        b.Adopted (g.register_engine_adopter a b).2) ∧
      (b.Adopted g → ∀ e, (g.register_engine_adopter a b).1 ≠ .error e) := by
  unfold Shared.register_engine_adopter
  cases hc : b.adopt_comm with
  | none =>
    refine ⟨Shared.Grows.refl g, fun _ callback hcallback => ?_, fun _ e he => by simp at he⟩
    rw [hc] at hcallback
    cases hcallback
  | some callback =>
    have hsubset : g.calculators.adopters ⊆
        (g.calculators.addCalculatorCommAdopter (some callback) a.adopter).2.adopters :=
      (Calculators.Process.addCalculatorCommAdopter_registers _ _ _).adopters_subset
    by_cases hmem : callback ∈ g.engines
    · simp only [if_pos hmem]
      refine ⟨⟨List.Subset.refl _, hsubset⟩, ?_, fun _ e he => by simp at he⟩
      intro haccepted callback' hcallback'
      obtain rfl : callback = callback' := Option.some.inj (hc.symm.trans hcallback')
      exact ⟨hmem, mem_adopters_of_accepted (by simpa using haccepted)⟩
    · simp only [if_neg hmem]
      have hnew : ¬ b.Adopted g := fun h => hmem (h callback hc).1
      cases a.reopened with
      | error e => exact ⟨Shared.Grows.refl g, by simp, fun h => absurd h hnew⟩
      | ok found =>
        by_cases hfound : found ≠ some callback
        · simp only [if_pos hfound]
          exact ⟨Shared.Grows.refl g, by simp, fun h => absurd h hnew⟩
        · simp only [if_neg hfound]
          refine ⟨⟨List.subset_append_left _ _, hsubset⟩, ?_, fun h => absurd h hnew⟩
          intro haccepted callback' hcallback'
          obtain rfl : callback = callback' := Option.some.inj (hc.symm.trans hcallback')
          exact ⟨by simp, mem_adopters_of_accepted (by simpa using haccepted)⟩

end Register

namespace Impl

/-- The session the destructor would destroy, with the library it would ask. -/
def held (i : Impl) : List (ℕ × Library) :=
  match i.session, i.bundle.session_destroy with
  | some session, some lib => [(session, lib)]
  | _, _ => []

/-- A live session of the loaded library, made from the parameters the instance remembers. -/
structure Live (i : Impl) (g : Shared) (s : ℕ) (lib : Library) : Prop where
  loaded : i.bundle.loaded = true
  session_abi : i.bundle.has_session_result_abi = true
  session_create : i.bundle.session_create = some lib
  session_destroy : i.bundle.session_destroy = some lib
  created : ∃ words, words.bytes = i.session_params ∧
    i.calls[s]? = some (.create lib words i.session_engine_path (some s))
  adopted : i.bundle.Adopted g

/-- The sessions destroyed, followed by the one held, are the sessions created, in order. -/
structure Sound (i : Impl) (g : Shared) : Prop where
  live : ∀ s, i.session = some s → ∃ lib, i.Live g s lib
  balance : destructions i.calls ++ i.held = creations i.calls
  fresh : ∀ c ∈ creations i.calls, c.1 < i.calls.length
  nodup : ((creations i.calls).map Prod.fst).Nodup
  library : i.bundle.has_session_result_abi = true →
    ∃ lib, i.bundle.session_create = some lib ∧ i.bundle.session_destroy = some lib

/-- The live session, if any, was made from the stored parameters and path, and the key is theirs. -/
structure Current (i : Impl) : Prop where
  key : i.params_key = (Config.cpmd i.params_words).paramsKey
  session : i.session ≠ none →
    i.session_params = i.params_words.bytes ∧ i.session_engine_path = i.engine_path

section Destroy

@[simp] theorem destroySession_session : i.destroySession.session = none := rfl

@[simp] theorem destroySession_bundle : i.destroySession.bundle = i.bundle := rfl

@[simp] theorem destroySession_held : i.destroySession.held = [] := rfl

theorem held_of_none (h : i.session = none) : i.held = [] := by
  simp [held, h]

theorem destroySession_calls (i : Impl) :
    destructions i.destroySession.calls = destructions i.calls ++ i.held ∧
      creations i.destroySession.calls = creations i.calls ∧
      i.calls.length ≤ i.destroySession.calls.length := by
  simp only [destroySession, held]
  cases i.session with
  | none => simp
  | some s =>
    cases i.bundle.session_destroy with
    | none => simp
    | some lib => simp

theorem Sound.destroySession (h : Sound i g) : Sound i.destroySession g := by
  obtain ⟨hdestroyed, hcreated, hlength⟩ := destroySession_calls i
  refine ⟨by simp, ?_, ?_, hcreated ▸ h.nodup, h.library⟩
  · rw [hdestroyed, hcreated, destroySession_held, List.append_nil]
    exact h.balance
  · intro c hc
    exact (h.fresh c (hcreated ▸ hc)).trans_le hlength

end Destroy

section Create

/-- What the engine's answer leaves: no session, or a live one of the stored parameters. -/
theorem createSession_cases (i : Impl) (hlib : i.bundle.session_create = some lib)
    (hnone : i.session = none) :
    (i.createSession a).2 =
        { i with calls := i.calls ++ [.create lib i.params_words i.engine_path none] } ∨
      (i.createSession a).2 =
        { i with
          session := some i.calls.length
          calls := i.calls ++ [.create lib i.params_words i.engine_path (some i.calls.length)]
          session_params := i.params_words.bytes
          session_engine_path := i.engine_path } := by
  simp only [createSession, hlib]
  cases a.session_create with
  | false => simp [hnone]
  | true => simp

theorem Sound.createSession (h : Sound i g) (hloaded : i.bundle.loaded = true)
    (habi : i.bundle.has_session_result_abi = true) (hadopted : i.bundle.Adopted g)
    (hnone : i.session = none) : Sound (i.createSession a).2 g := by
  obtain ⟨lib, hcreate, hdestroy⟩ := h.library habi
  have hbalance : destructions i.calls = creations i.calls := by
    simpa [held_of_none hnone] using h.balance
  rcases createSession_cases (a := a) i hcreate hnone with heq | heq <;> rw [heq]
  · refine ⟨by simp [hnone], ?_, ?_, ?_, h.library⟩
    · simpa [held, hnone] using hbalance
    · intro c hc
      have hlt := h.fresh c (by simpa using hc)
      simp only [List.length_append, List.length_singleton]
      omega
    · simpa using h.nodup
  · have hcreations : creations
        (i.calls ++ [.create lib i.params_words i.engine_path (some i.calls.length)]) =
        creations i.calls ++ [(i.calls.length, lib)] := by simp
    refine ⟨?_, ?_, ?_, ?_, h.library⟩
    · rintro s ⟨⟩
      exact ⟨lib, hloaded, habi, hcreate, hdestroy, ⟨i.params_words, rfl, by simp⟩, hadopted⟩
    · rw [hcreations]
      simp [held, hdestroy, hbalance]
    · intro c hc
      rw [hcreations] at hc
      simp only [List.length_append, List.length_singleton]
      rcases List.mem_append.mp hc with hc | hc
      · have hlt := h.fresh c hc
        omega
      · rw [List.mem_singleton.mp hc]
        omega
    · rw [hcreations, List.map_append, List.nodup_append]
      refine ⟨h.nodup, by simp, ?_⟩
      intro n hn m hm
      obtain ⟨c, hc, rfl⟩ := List.mem_map.mp hn
      obtain rfl : m = i.calls.length := by simpa using hm
      exact (h.fresh c hc).ne

theorem createSession_frame (i : Impl) :
    (i.createSession a).2.params_words = i.params_words ∧
      (i.createSession a).2.engine_path = i.engine_path ∧
      (i.createSession a).2.params_key = i.params_key := by
  unfold createSession
  cases i.bundle.session_create with
  | none => exact ⟨rfl, rfl, rfl⟩
  | some lib => cases a.session_create <;> exact ⟨rfl, rfl, rfl⟩

theorem createSession_current (hlib : i.bundle.session_create = some lib) (hnone : i.session = none)
    (hs : (i.createSession a).2.session ≠ none) :
    (i.createSession a).2.session_params = i.params_words.bytes ∧
      (i.createSession a).2.session_engine_path = i.engine_path := by
  rcases createSession_cases (a := a) i hlib hnone with heq | heq <;> rw [heq] at hs ⊢
  · exact absurd hnone hs
  · exact ⟨rfl, rfl⟩

end Create

section Apply

/-- What applying the parameters gives: the ownership stays in order, and a session that is live
afterwards has them. -/
theorem Sound.applyParams (h : Sound i g) (hloaded : i.bundle.loaded = true)
    (hadopted : i.bundle.Adopted g) (hkey : i.params_key = (Config.cpmd i.params_words).paramsKey) :
    Sound (i.applyParams a).2 g ∧ Current (i.applyParams a).2 := by
  unfold Impl.applyParams
  by_cases habi : i.bundle.has_session_result_abi = true
  · rw [if_pos habi]
    by_cases hsame : i.session.isSome ∧ i.engine_path = i.session_engine_path ∧
        i.params_words.bytes = i.session_params
    · rw [if_pos hsame]
      exact ⟨h, hkey, fun _ => ⟨hsame.2.2.symm, hsame.2.1.symm⟩⟩
    · rw [if_neg hsame]
      obtain ⟨lib, hcreate, -⟩ := h.library habi
      obtain ⟨hwords, hpath, hk⟩ := createSession_frame (a := a) i.destroySession
      refine ⟨h.destroySession.createSession hloaded habi hadopted rfl, ?_, ?_⟩
      · rw [hk, hwords]
        exact hkey
      · intro hs
        rw [hwords, hpath]
        exact createSession_current hcreate rfl hs
  · rw [if_neg habi]
    exact ⟨h.destroySession, hkey, fun hs => absurd rfl hs⟩

end Apply

section Configure

theorem Sound.grows (h : Sound i g) (hg : g.Grows g') : Sound i g' := by
  refine ⟨fun s hs => ?_, h.balance, h.fresh, h.nodup, h.library⟩
  obtain ⟨lib, hlive⟩ := h.live s hs
  exact ⟨lib, hlive.loaded, hlive.session_abi, hlive.session_create, hlive.session_destroy,
    hlive.created, hlive.adopted.grows hg⟩

/-- Whoever owns the session does not depend on the parameters stored. -/
theorem Sound.store (h : Sound i g) (words : Str) (engine_path : String) (key : UInt64) : Sound
    { i with params_words := words, engine_path := engine_path, params_key := key } g := by
  refine ⟨fun s hs => ?_, h.balance, h.fresh, h.nodup, h.library⟩
  obtain ⟨lib, hlive⟩ := h.live s hs
  exact ⟨lib, hlive.loaded, hlive.session_abi, hlive.session_create, hlive.session_destroy,
    hlive.created, hlive.adopted⟩

/-- A bundle can only be replaced once the session is gone. -/
theorem Sound.replaceBundle (h : Sound i g) (hnone : i.session = none)
    (hlibrary : b.has_session_result_abi = true →
      ∃ lib, b.session_create = some lib ∧ b.session_destroy = some lib) :
    Sound { i with bundle := b } g := by
  refine ⟨by simp [hnone], ?_, h.fresh, h.nodup, hlibrary⟩
  have hbalance := h.balance
  rw [held_of_none hnone] at hbalance
  rwa [held_of_none (by exact hnone)]

theorem Sound.configure (h : Sound i g) (hloaded : i.bundle.loaded = true)
    (hkey : i.params_key = (Config.cpmd i.params_words).paramsKey) :
    g.Grows (i.configure a g).2.2 ∧ Sound (i.configure a g).2.1 (i.configure a g).2.2 ∧
      Current (i.configure a g).2.1 := by
  obtain ⟨hgrows, hyes, herror⟩ := register_engine_adopter_spec a i.bundle g
  unfold Impl.configure
  generalize g.register_engine_adopter a i.bundle = r at hgrows hyes herror
  obtain ⟨r, g'⟩ := r
  cases r with
  | error e =>
    refine ⟨hgrows, h.grows hgrows, hkey, fun hs => ?_⟩
    obtain ⟨s, hs⟩ := Option.ne_none_iff_exists'.mp hs
    obtain ⟨lib, hlive⟩ := h.live s hs
    exact absurd rfl (herror hlive.adopted e)
  | ok accepted =>
    cases accepted with
    | false =>
      -- the session goes first: it is destroyed through the bundle that is marked unloaded
      have hdestroyed := (h.grows hgrows).destroySession
      refine ⟨hgrows, ?_, hkey, fun hs => absurd rfl hs⟩
      exact hdestroyed.replaceBundle rfl h.library
    | true =>
      have happly := (h.grows hgrows).applyParams (a := a) hloaded (hyes rfl) hkey
      exact ⟨hgrows, happly.1, happly.2⟩

end Configure

section Load

theorem sym_optional_eq_some {l l' : Library} {x : Symbol} (h : sym_optional l x = some l') :
    l = l' := by
  unfold sym_optional at h
  split at h
  · exact Option.some.inj h
  · cases h

/-- All functions of a bundle are those of one library. -/
theorem try_load_engine_library (a : Answers) (path : String)
    (h : (EngineBundle.try_load_engine a path).has_session_result_abi = true) :
    ∃ lib, (EngineBundle.try_load_engine a path).session_create = some lib ∧
      (EngineBundle.try_load_engine a path).session_destroy = some lib := by
  have hsame : ∀ l, (EngineBundle.try_load_engine a path).session_create = some l →
      ∀ m, (EngineBundle.try_load_engine a path).session_destroy = some m → l = m := by
    intro l hl m hm
    unfold EngineBundle.try_load_engine at hl hm
    cases hopen : openFirst a (engine_lib_candidates a path) "" with
    | error e => simp [hopen] at hl
    | ok found =>
      simp only [hopen] at hl hm
      split_ifs at hl hm <;>
        exact (sym_optional_eq_some hl).symm.trans (sym_optional_eq_some hm)
  simp only [EngineBundle.has_session_result_abi, Bool.and_eq_true] at h
  obtain ⟨l, hl⟩ := Option.isSome_iff_exists.mp h.1.1.1
  obtain ⟨m, hm⟩ := Option.isSome_iff_exists.mp h.1.1.2
  exact ⟨l, hl, (hsame l hl m hm) ▸ hm⟩

end Load

section Operations

theorem Sound.initial (words : Str) : Sound { params_words := words } g where
  live s hs := by cases hs
  balance := rfl
  fresh := by simp [creations]
  nodup := by simp [creations]
  library h := by cases h

theorem construct_sound (a : Answers) (words : Str) (engine_path : String) (g : Shared) :
    g.Grows (construct a words engine_path g).2.2 ∧
      Sound (construct a words engine_path g).2.1 (construct a words engine_path g).2.2 ∧
      Current (construct a words engine_path g).2.1 := by
  have hstored := (Sound.initial (g := g) words).store words engine_path
    (Config.cpmd words).paramsKey
  have hloaded := hstored.replaceBundle rfl (try_load_engine_library a engine_path)
  dsimp only at hloaded
  unfold construct
  by_cases hl : (EngineBundle.try_load_engine a engine_path).loaded = true
  · simp only [recomputeParamsKey, if_pos hl]
    exact hloaded.configure hl (by dsimp only)
  · simp only [recomputeParamsKey, if_neg hl]
    exact ⟨Shared.Grows.refl g, hloaded, by dsimp only, fun hs => absurd rfl hs⟩

theorem setParams_sound (h : Sound i g) (a : Answers) (params : CPMDParams) :
    g.Grows (i.setParams a params g).2.2 ∧
      Sound (i.setParams a params g).2.1 (i.setParams a params g).2.2 ∧
      Current (i.setParams a params g).2.1 := by
  have hstored := h.store params.words params.enginePath (Config.cpmd params.words).paramsKey
  unfold setParams
  by_cases hreload : ¬ i.bundle.loaded = true ∨ params.enginePath ≠ i.engine_path
  · have hreloaded := hstored.destroySession.replaceBundle rfl
      (try_load_engine_library a params.enginePath)
    simp only [recomputeParamsKey, if_pos hreload]
    by_cases hl : (EngineBundle.try_load_engine a params.enginePath).loaded = true
    · simp only [if_pos hl]
      exact hreloaded.configure hl (by dsimp only [destroySession])
    · simp only [if_neg hl]
      exact ⟨Shared.Grows.refl g, hreloaded, by dsimp only [destroySession], fun hs => absurd rfl hs⟩
  · have hl : i.bundle.loaded = true := by
      by_contra hl
      exact hreload (Or.inl hl)
    simp only [recomputeParamsKey, if_neg hreload, if_pos hl]
    exact hstored.configure hl (by dsimp only)

/-- With the parameters it has and no refusal, an instance keeps its session and asks nothing of the
engine. -/
theorem setParams_keeps (h : Sound i g) (hcurrent : Current i) (hs : i.session = some s)
    (hrefused : i.bundle.adopt_comm = none ∨
      ¬ (g.calculators.bound = true ∧ g.calculators.group.index < 0))
    (params : CPMDParams) (hwords : params.words = i.params_words)
    (hpath : params.enginePath = i.engine_path) :
    (i.setParams a params g).1 = .ok true ∧ (i.setParams a params g).2.1.session = some s ∧
      (i.setParams a params g).2.1.calls = i.calls := by
  obtain ⟨lib, hlive⟩ := h.live s hs
  obtain ⟨hparams, hsession_path⟩ := hcurrent.session (by simp [hs])
  have hregister : (g.register_engine_adopter a i.bundle).1 = .ok true := by
    unfold Shared.register_engine_adopter
    cases hc : i.bundle.adopt_comm with
    | none => rfl
    | some callback =>
      obtain ⟨hengine, hadopter⟩ := hlive.adopted callback hc
      have hstands : g.calculators.bound = true → 0 ≤ g.calculators.group.index := by
        intro hb
        rcases hrefused with hnone | hok
        · rw [hc] at hnone
          cases hnone
        · exact Int.not_lt.mp fun hi => hok ⟨hb, hi⟩
      simpa [hengine, Calculators.Process.addCalculatorCommAdopter, hadopter,
        Bool.eq_false_or_eq_true, imp_iff_not_or] using hstands
  have hreload : ¬ (¬ i.bundle.loaded = true ∨ params.enginePath ≠ i.engine_path) := by
    simp [hlive.loaded, hpath]
  unfold setParams
  simp only [recomputeParamsKey, if_neg hreload, if_pos hlive.loaded]
  unfold Impl.configure
  generalize g.register_engine_adopter a i.bundle = r at hregister
  obtain ⟨r, g'⟩ := r
  obtain rfl : r = .ok true := hregister
  simp [applyParams, hlive.session_abi, hs, hparams, hsession_path, hwords, hpath]

theorem configure_error {e : String} (h : (i.configure a g).1 = .error e) :
    (i.configure a g).2.1 = i := by
  unfold Impl.configure at h ⊢
  generalize g.register_engine_adopter a i.bundle = r at h ⊢
  obtain ⟨r, g'⟩ := r
  cases r with
  | error e => rfl
  | ok accepted => cases accepted <;> cases h

/-- A constructor that throws has made no session. -/
theorem construct_error {words : Str} {engine_path : String} {e : String}
    (h : (construct a words engine_path g).1 = .error e) :
    (construct a words engine_path g).2.1.session = none := by
  unfold construct at h ⊢
  by_cases hl : (EngineBundle.try_load_engine a engine_path).loaded = true
  · simp only [recomputeParamsKey, if_pos hl] at h ⊢
    generalize hr : configure a _ g = r at h ⊢
    obtain ⟨r, j, g'⟩ := r
    cases r with
    | error e' =>
      have hj := configure_error (e := e') (by rw [hr])
      rw [hr] at hj
      rw [show j = _ from hj]
    | ok accepted => cases h
  · simp only [recomputeParamsKey, if_neg hl]

end Operations

end Impl

section Pairs
variable {α : Type} {l : List (ℕ × α)} {x : α}

theorem filter_fst_of_not_mem (h : s ∉ l.map Prod.fst) : l.filter (·.1 = s) = [] := by
  rw [List.filter_eq_nil_iff]
  intro p hp hps
  exact h (List.mem_map.mpr ⟨p, hp, of_decide_eq_true hps⟩)

theorem filter_fst_of_mem (hnodup : (l.map Prod.fst).Nodup) (h : (s, x) ∈ l) :
    l.filter (·.1 = s) = [(s, x)] := by
  induction l with
  | nil => cases h
  | cons p l ih =>
    rw [List.map_cons, List.nodup_cons] at hnodup
    rcases List.mem_cons.mp h with rfl | h
    · simp [filter_fst_of_not_mem hnodup.1]
    · have hne : p.1 ≠ s := by
        intro hps
        exact hnodup.1 (hps ▸ List.mem_map_of_mem (f := Prod.fst) h)
      simp [hne, ih hnodup.2 h]

end Pairs

namespace Impl

/-- A session that was created has been destroyed once by its library, or is the one held. -/
theorem Sound.destroyed_or_held (h : Sound i g) (hc : (s, lib) ∈ creations i.calls) :
    (destructions i.calls).filter (·.1 = s) = [(s, lib)] ∨
      (i.session = some s ∧ (destructions i.calls).filter (·.1 = s) = []) := by
  have hnodup := h.nodup
  rw [← h.balance, List.map_append] at hnodup
  rw [← h.balance] at hc
  rcases List.mem_append.mp hc with hc | hc
  · exact Or.inl (filter_fst_of_mem (List.nodup_append.mp hnodup).1 hc)
  · right
    refine ⟨?_, filter_fst_of_not_mem fun hs => ?_⟩
    · unfold held at hc
      split at hc
      · rename_i hsession _
        obtain ⟨rfl, -⟩ := Prod.mk.inj (List.mem_singleton.mp hc)
        exact hsession
      · cases hc
    · exact (List.nodup_append.mp hnodup).2.2 s hs s (List.mem_map_of_mem (f := Prod.fst) hc) rfl

end Impl

namespace Process

variable {w : Calculators.World} {p : Process} {es : List Event}

/-- The invariant of a process. -/
structure Good (p : Process) : Prop where
  sound : ∀ pot ∈ p.pots, pot.impl.Sound p.shared
  current : ∀ pot ∈ p.pots, pot.alive = true → pot.impl.Current
  dead : ∀ pot ∈ p.pots, pot.alive = false → pot.impl.session = none

theorem Good.construct (h : Good p) (a : Answers) (words : Str) (engine_path : String) :
    Good (p.step w (.construct a words engine_path)) := by
  obtain ⟨hgrows, hsound, hcurrent⟩ := Impl.construct_sound a words engine_path p.shared
  have herror := @Impl.construct_error p.shared a words engine_path
  simp only [step]
  generalize Impl.construct a words engine_path p.shared = r at hgrows hsound hcurrent herror
  obtain ⟨r, i, g⟩ := r
  refine ⟨?_, ?_, ?_⟩ <;> intro pot hpot <;> rcases List.mem_append.mp hpot with hpot | hpot
  · exact (h.sound pot hpot).grows hgrows
  · rw [List.mem_singleton.mp hpot]
    exact hsound
  · exact h.current pot hpot
  · rw [List.mem_singleton.mp hpot]
    exact fun _ => hcurrent
  · exact h.dead pot hpot
  · rw [List.mem_singleton.mp hpot]
    cases r with
    | ok => intro hdead; cases hdead
    | error e => exact fun _ => herror rfl

theorem step_setParams {k : ℕ} {params : CPMDParams} (hk : p.pots[k]? = some ⟨i, true⟩) :
    p.step w (.setParams a k params) =
      { shared := (i.setParams a params p.shared).2.2
        pots := p.pots.set k ⟨(i.setParams a params p.shared).2.1, true⟩ } := by
  simp only [step, hk]

theorem Good.setParams (h : Good p) (a : Answers) (k : ℕ) (params : CPMDParams) :
    Good (p.step w (.setParams a k params)) := by
  simp only [step]
  split
  · rename_i i hk
    have hmem := List.mem_of_getElem? hk
    obtain ⟨hgrows, hsound, hcurrent⟩ := Impl.setParams_sound (h.sound _ hmem) a params
    refine ⟨?_, ?_, ?_⟩ <;> intro pot hpot <;> rcases List.mem_or_eq_of_mem_set hpot with hpot | rfl
    · exact (h.sound pot hpot).grows hgrows
    · exact hsound
    · exact h.current pot hpot
    · exact fun _ => hcurrent
    · exact h.dead pot hpot
    · intro hdead
      cases hdead
  · exact h

theorem Good.destroy (h : Good p) (k : ℕ) : Good (p.step w (.destroy k)) := by
  simp only [step]
  split
  · rename_i i hk
    have hmem := List.mem_of_getElem? hk
    refine ⟨?_, ?_, ?_⟩ <;> intro pot hpot <;> rcases List.mem_or_eq_of_mem_set hpot with hpot | rfl
    · exact h.sound pot hpot
    · exact (h.sound _ hmem).destroySession
    · exact h.current pot hpot
    · intro halive
      cases halive
    · exact h.dead pot hpot
    · exact fun _ => rfl
  · exact h

theorem Good.step (h : Good p) (e : Event) : Good (p.step w e) := by
  cases e with
  | construct a words engine_path => exact h.construct a words engine_path
  | setParams a k params => exact h.setParams a k params
  | destroy k => exact h.destroy k
  | calculators e =>
    have hgrows : p.shared.Grows
        { p.shared with calculators := p.shared.calculators.step w e } :=
      ⟨List.Subset.refl _, Calculators.Process.adopters_subset_step e⟩
    exact ⟨fun pot hpot => (h.sound pot hpot).grows hgrows, h.current, h.dead⟩

theorem good_run (es : List Event) : Good (run w es) := by
  induction es using List.reverseRecOn with
  | nil => exact ⟨by simp [run], by simp [run], by simp [run]⟩
  | append_singleton es e ih =>
    rw [run, List.foldl_append]
    exact ih.step e

/-- Over every run: a live session is the one its library was asked to create from the stored
parameters and path, and that library is the loaded one; the key is that of the stored parameters;
every session created is destroyed exactly once, by the library that created it, unless it is still
held; and unless the calculator bind of its engine stands refused, setting the parameters an instance
has already keeps its session. -/
theorem session_lifecycle (w : Calculators.World) (es : List Event) :
    (∀ pot ∈ (run w es).pots, pot.alive = true →
      pot.impl.params_key = (Config.cpmd pot.impl.params_words).paramsKey ∧
      ∀ s, pot.impl.session = some s → ∃ lib, pot.impl.bundle.loaded = true ∧
        pot.impl.bundle.session_create = some lib ∧
        pot.impl.calls[s]? =
          some (.create lib pot.impl.params_words pot.impl.engine_path (some s))) ∧
    (∀ pot ∈ (run w es).pots, ∀ s lib, (s, lib) ∈ creations pot.impl.calls →
      (destructions pot.impl.calls).filter (·.1 = s) = [(s, lib)] ∨
        (pot.alive = true ∧ pot.impl.session = some s ∧
          (destructions pot.impl.calls).filter (·.1 = s) = [])) ∧
    (∀ a k i s params, (run w es).pots[k]? = some ⟨i, true⟩ → i.session = some s →
      (i.bundle.adopt_comm = none ∨ ¬ ((run w es).shared.calculators.bound = true ∧
        (run w es).shared.calculators.group.index < 0)) →
      params.words = i.params_words → params.enginePath = i.engine_path →
      ∃ j, (run w (es ++ [.setParams a k params])).pots[k]? = some ⟨j, true⟩ ∧
        j.session = some s ∧ j.calls = i.calls) := by
  have hgood := good_run (w := w) es
  refine ⟨?_, ?_, ?_⟩
  · intro pot hpot halive
    refine ⟨(hgood.current pot hpot halive).key, fun s hs => ?_⟩
    obtain ⟨lib, hlive⟩ := (hgood.sound pot hpot).live s hs
    obtain ⟨hparams, hpath⟩ := (hgood.current pot hpot halive).session (by simp [hs])
    obtain ⟨⟨words, _⟩, hwords, hcreated⟩ := hlive.created
    refine ⟨lib, hlive.loaded, hlive.session_create, ?_⟩
    have hsame : words = pot.impl.params_words.bytes := hwords.trans hparams
    subst hsame
    rwa [hpath] at hcreated
  · intro pot hpot s lib hc
    rcases (hgood.sound pot hpot).destroyed_or_held hc with hdestroyed | ⟨hs, hnever⟩
    · exact Or.inl hdestroyed
    · refine Or.inr ⟨?_, hs, hnever⟩
      by_contra halive
      simp [hgood.dead pot hpot (by simpa using halive)] at hs
  · intro a k i s params hk hs hrefused hwords hpath
    have hmem := List.mem_of_getElem? hk
    obtain ⟨-, hsession, hcalls⟩ := Impl.setParams_keeps (a := a) (hgood.sound _ hmem)
      (hgood.current _ hmem rfl) hs hrefused params hwords hpath
    refine ⟨(i.setParams a params (run w es).shared).2.1, ?_, hsession, hcalls⟩
    have hlt : k < (run w es).pots.length := (List.getElem?_eq_some_iff.mp hk).1
    rw [run, List.foldl_append, ← run, List.foldl_cons, List.foldl_nil, step_setParams hk]
    simp [hlt]

section Examples

/-- An engine with the session interface and a communicator adopter. -/
def engine : Library where
  handle := 1
  exports := [.session_create, .session_destroy, .potential_result_size_for_force_input,
    .session_calculate_result, .feature_count, .feature_table, .feature_find]
  adopt_comm := some 5

/-- An environment in which that engine loads and makes sessions. -/
def willing : Answers where
  getenv _ := none
  dlopen _ := .ok engine
  reopened := .ok (some 5)
  session_create := true
  set_params := true
  adopter := 0

def message : Str := ⟨[1, 2], by decide⟩

/-- A second `setParams` with the same message, before any bind. -/
theorem session_lifecycle_kept : ∃ j,
    (run ⟨1, 0, by decide⟩ ([.construct willing message ""] ++
      [.setParams willing 0 ⟨message, ""⟩])).pots[0]? = some ⟨j, true⟩ ∧ j.session = some 0 := by
  obtain ⟨i, hi, hs, hwords, hpath, hb⟩ : ∃ i,
      (run ⟨1, 0, by decide⟩ [.construct willing message ""]).pots[0]? = some ⟨i, true⟩ ∧
        i.session = some 0 ∧ i.params_words = message ∧ i.engine_path = "" ∧
        (run ⟨1, 0, by decide⟩ [.construct willing message ""]).shared.calculators.bound = false :=
    ⟨_, rfl, rfl, rfl, rfl, rfl⟩
  obtain ⟨j, hj, hkept, -⟩ := (session_lifecycle ⟨1, 0, by decide⟩
    [.construct willing message ""]).2.2 willing 0 i 0 ⟨message, ""⟩ hi hs (Or.inr (by simp [hb]))
    hwords.symm hpath.symm
  exact ⟨j, hj, hkept⟩

/-- A hook refuses the bind after the session was made: the same parameters then end the session. -/
theorem refused_bind_ends_session :
    ¬ ∀ (w : Calculators.World) (es : List Event) a k i s params,
      (run w es).pots[k]? = some ⟨i, true⟩ → i.session = some s →
      params.words = i.params_words → params.enginePath = i.engine_path →
      ∃ j, (run w (es ++ [.setParams a k params])).pots[k]? = some ⟨j, true⟩ ∧
        j.session = some s := by
  intro h
  obtain ⟨i, hi, hs, hwords, hpath⟩ : ∃ i,
      (run ⟨1, 0, by decide⟩ [.construct willing message "",
        .calculators (.addCalculatorHook (some 7)),
        .calculators (.bindCalculators 1 true true (fun _ => -1) fun _ => 0)]).pots[0]? =
          some ⟨i, true⟩ ∧
        i.session = some 0 ∧ i.params_words = message ∧ i.engine_path = "" :=
    ⟨_, rfl, rfl, rfl, rfl⟩
  obtain ⟨j, hj, hkept⟩ := h _ _ willing 0 i 0 ⟨message, ""⟩ hi hs hwords.symm hpath.symm
  have hnone : ((run ⟨1, 0, by decide⟩ ([.construct willing message "",
      .calculators (.addCalculatorHook (some 7)),
      .calculators (.bindCalculators 1 true true (fun _ => -1) fun _ => 0)] ++
      [.setParams willing 0 ⟨message, ""⟩])).pots[0]?).map (·.impl.session) = some none := rfl
  rw [hj] at hnone
  simp [hkept] at hnone

end Examples

end Process
end Rgpot.Cpmd
