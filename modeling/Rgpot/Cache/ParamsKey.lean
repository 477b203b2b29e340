import Rgpot.Cache.Coherence
import Rgpot.Cache.Configs

/-! Instances of the leaf classes on one shared cache: which parameter sets it keeps apart. -/
namespace Rgpot.Cache
open Fallible

/-- The arms of a `PotentialConfig` message that a leaf class handles. -/
inductive PotentialConfig where
  | none
  | nwchem (params : NWChemConfig)
  | cpmd (params : Str)
  | other

/-- A potential object: the configuration its kernel computes from, with the fingerprint it
reports. -/
structure Instance where
  config : Config
  paramsKey : UInt64

/-- The mutators; `NWChemPot` and `CPMDPot` have a `setParams` each. -/
inductive Change where
  | setNWChemParams (params : NWChemConfig)
  | setCPMDParams (params : Str)
  | setPotentialConfig (cfg : PotentialConfig)
  | setChargeSpin (charge spin : Int32)
  | setChargeMultiplicity (charge multiplicity : Int32)

namespace Instance

/-- A constructor that returned, or a mutator once it has stored and hashed the parameters. -/
def configured (c : Config) : Instance := ⟨c, c.paramsKey⟩

/-- `NWChemPot::setParams` stores the message whether or not the engine takes it. An engine that is
loaded stays, whatever the path of the message. -/
def setNWChemParams (files : Files) (i : Instance) (params : NWChemConfig) : Instance :=
  match i.config with
  | .nwchem c =>
    let engine_path :=
      if (files.nwchemc c.engine_path).isSome then c.engine_path else params.engine_path
    configured (.nwchem { params with engine_path := engine_path })
  | _ => i

/-- `CPMDPot::setParams` reloads an engine whose path changes. -/
def setCPMDParams (i : Instance) (params : Str) : Instance :=
  match i.config with
  | .cpmd _ => configured (.cpmd params)
  | _ => i

def setPotentialConfig (files : Files) (i : Instance) (cfg : PotentialConfig) : Instance :=
  match i.config, cfg with
  | .nwchem _, .nwchem params => i.setNWChemParams files params
  | .cpmd _, .cpmd params => i.setCPMDParams params
  | _, _ => i

/-- `MetatomicPot` has no fingerprint to refresh. -/
def setChargeSpin (i : Instance) (charge spin : Int32) : Instance :=
  match i.config with
  | .uma c => configured (.uma { c with charge := charge, spin := spin })
  | .metatomic c => ⟨.metatomic { c with charge := charge, spin := spin }, i.paramsKey⟩
  | _ => i

/-- `applyToEngine` throws on a multiplicity below 1, before the engine and the fingerprint. -/
def setChargeMultiplicity (i : Instance) (charge multiplicity : Int32) : Instance :=
  match i.config with
  | .skala c =>
    if multiplicity < 1 then i
    else configured (.skala { c with charge := charge, multiplicity := multiplicity })
  | _ => i

def change (files : Files) (i : Instance) : Change → Instance
  | .setNWChemParams params => i.setNWChemParams files params
  | .setCPMDParams params => i.setCPMDParams params
  | .setPotentialConfig cfg => i.setPotentialConfig files cfg
  | .setChargeSpin charge spin => i.setChargeSpin charge spin
  | .setChargeMultiplicity charge multiplicity => i.setChargeMultiplicity charge multiplicity

/-- The potential an instance is, over kernels `E` that compute from what they read of a
configuration. -/
def potential (files : Files) (E : Config → PurePotential) (i : Instance) : PurePotential :=
  { E (i.config.effective files) with type := i.config.type, paramsKey := i.paramsKey }

/-- The reported fingerprint is that of the configuration in use. -/
def Fresh (i : Instance) : Prop := i.paramsKey = i.config.paramsKey

theorem fresh_configured (c : Config) : (configured c).Fresh := rfl

theorem Fresh.eq_configured {i : Instance} (h : i.Fresh) : i = configured i.config := by
  obtain ⟨c, k⟩ := i
  obtain rfl : k = c.paramsKey := h
  rfl

theorem Fresh.setNWChemParams {i : Instance} (h : i.Fresh) (files : Files)
    (params : NWChemConfig) : (i.setNWChemParams files params).Fresh := by
  unfold Instance.setNWChemParams
  split
  · exact fresh_configured _
  · exact h

theorem Fresh.setCPMDParams {i : Instance} (h : i.Fresh) (params : Str) :
    (i.setCPMDParams params).Fresh := by
  unfold Instance.setCPMDParams
  split
  · exact fresh_configured _
  · exact h

/-- Every mutator refreshes the fingerprint with the parameters it stores, or its class has none. -/
theorem Fresh.change {i : Instance} (h : i.Fresh) (files : Files) (ch : Change) :
    (i.change files ch).Fresh := by
  cases ch with
  | setNWChemParams params => exact h.setNWChemParams files params
  | setCPMDParams params => exact h.setCPMDParams params
  | setPotentialConfig cfg =>
    simp only [Instance.change, setPotentialConfig]
    split
    · exact h.setNWChemParams files _
    · exact h.setCPMDParams _
    · exact h
  | setChargeSpin charge spin =>
    simp only [Instance.change, setChargeSpin]
    split
    · exact fresh_configured _
    · rename_i c hc
      rw [Fresh, hc] at h
      exact h
    · exact h
  | setChargeMultiplicity charge multiplicity =>
    simp only [Instance.change, setChargeMultiplicity]
    split
    · split
      · exact h
      · exact fresh_configured _
    · exact h

end Instance

/-- The objects of a process and the cache they share. -/
structure World where
  instances : List Instance
  cache : PotentialCache

namespace World

/-- Constructions and parameter changes within the configurations `𝒞`, which their constructors
accept, evaluations of systems of `S`, and losses of records. -/
inductive Step (files : Files) (E : Config → PurePotential) (H : List UInt8 → ℕ) (𝒞 : Set Config)
    (S : Set ForceInput) (w : World) : World → Prop
  | construct (c : Config) : c ∈ 𝒞 →
      Step files E H 𝒞 S w { w with instances := w.instances ++ [.configured c] }
  | change (k : ℕ) (i : Instance) (ch : Change) : w.instances[k]? = some i →
      (i.change files ch).config ∈ 𝒞 →
      Step files E H 𝒞 S w { w with instances := w.instances.set k (i.change files ch) }
  | call (i : Instance) (env : Env) (fi : ForceInput) (c' : PotentialCache) :
      i ∈ w.instances → fi ∈ S →
      ((i.potential files E).call H (some w.cache) env fi).cache = some c' →
      Step files E H 𝒞 S w { w with cache := c' }
  | batch (i : Instance) (env : Env) (batch : List System) (c' : PotentialCache) :
      i ∈ w.instances → (∀ s ∈ batch, s.input ∈ S) →
      ((i.potential files E).forceBatch H (some w.cache) env batch).cache = some c' →
      Step files E H 𝒞 S w { w with cache := c' }
  | lose (c' : PotentialCache) : (∀ key, c'.find key = none ∨ c'.find key = w.cache.find key) →
      Step files E H 𝒞 S w { w with cache := c' }

/-- A process starts with no objects and a cache without records. -/
inductive Reachable (files : Files) (E : Config → PurePotential) (H : List UInt8 → ℕ)
    (𝒞 : Set Config) (S : Set ForceInput) : World → Prop
  | start (c₀ : PotentialCache) : (∀ key, c₀.find key = none) → Reachable files E H 𝒞 S ⟨[], c₀⟩
  | step {w w' : World} : Reachable files E H 𝒞 S w → Step files E H 𝒞 S w w' →
      Reachable files E H 𝒞 S w'

end World

/-- Both entry points of `p` answer from the cache as they do without one. -/
structure Transparent (p : PurePotential) (H : List UInt8 → ℕ) (S : Set ForceInput)
    (c : PotentialCache) : Prop where
  call : ∀ fi ∈ S, ∀ env, (p.call H (some c) env fi).result = (p.call H none env fi).result
  batch : ∀ batch, (∀ s ∈ batch, s.input ∈ S) → ∀ env outs,
    (p.forceBatch H (some c) env batch).result = .ok outs →
    ∃ refs, (p.forceBatch H none env batch).result = .ok refs ∧ List.Forall₂ Agrees outs refs

variable {files : Files} {E : Config → PurePotential} {H : List UInt8 → ℕ} {𝒞 : Set Config}
  {S : Set ForceInput} {c c' : PotentialCache} {p : PurePotential} {env : Env} {fi : ForceInput}
  {batch : List System}

theorem Coherent.transparent (hkeys : S.InjOn (p.key H)) (h : Coherent p H S c) :
    Transparent p H S c where
  call fi hfi env := (call_spec env hkeys h hfi).1
  batch batch hin env outs houts := by
    obtain ⟨_, hok, _⟩ := forceBatch_spec env hkeys h hin
    obtain ⟨refs, hrefs, hagree⟩ := answers_split (hok outs houts)
    exact ⟨refs, uncached_eq_ok_iff.mpr hrefs, hagree⟩

section Frame

theorem writeBack_find (p : Potential) (H : List UInt8 → ℕ) (env : Env) (key : ℕ)
    (pairs : List (ℕ × ForceOut)) (j : ℕ) (batch : List System) (c : PotentialCache) :
    (p.writeBack H env pairs j batch c).2.find key = c.find key ∨
      ∃ s ∈ batch, key = p.key H s.input := by
  induction pairs generalizing j batch c with
  | nil => exact Or.inl rfl
  | cons x pairs ih =>
    obtain ⟨idx, m⟩ := x
    have hinput : ∀ s ∈ batch.modify idx (copyBack m), ∃ t ∈ batch, s.input = t.input := by
      intro s hs
      obtain ⟨k, hk, rfl⟩ := List.mem_iff_getElem.mp hs
      have hk' : k < batch.length := by simpa using hk
      rw [List.getElem_modify]
      refine ⟨batch[k], List.getElem_mem hk', ?_⟩
      split <;> rfl
    rcases ih (j + 1) (batch.modify idx (copyBack m)) _ with hsame | ⟨s, hs, hkey⟩
    · simp only [Potential.writeBack]
      rw [hsame]
      split
      · rename_i s hs
        rcases find_addSerialized c (p.key H s.input) key s.out s.input.nAtoms (env.kept j)
          with hold | ⟨hkey, _⟩
        · exact Or.inl hold
        · obtain ⟨t, ht, hst⟩ := hinput s (List.mem_of_getElem? hs)
          exact Or.inr ⟨t, ht, hst ▸ hkey⟩
      · exact Or.inl rfl
    · obtain ⟨t, ht, hst⟩ := hinput s hs
      exact Or.inr ⟨t, ht, hst ▸ hkey⟩

theorem call_find (key : ℕ) (h : (p.call H (some c) env fi).cache = some c') :
    c'.find key = c.find key ∨ key = p.key H fi := by
  simp only [Potential.call, Potential.finishCall] at h
  split at h
  · exact Or.inl (Option.some.inj h ▸ rfl)
  · split at h
    · exact Or.inl (Option.some.inj h ▸ rfl)
    · rename_i out _
      obtain rfl := Option.some.inj h
      rcases find_addSerialized c (p.key H fi) key out fi.nAtoms (env.kept 0) with hold | ⟨hkey, _⟩
      · exact Or.inl hold
      · exact Or.inr hkey

theorem serveHit_input {x : System × Option Record} {s : System} (h : serveHit x = .ok s) :
    s.input = x.1.input := by
  obtain ⟨t, _ | hit⟩ := x
  · cases h
    rfl
  · obtain ⟨out, _, hs⟩ := bind_eq_ok.mp h
    cases hs
    rfl

theorem finishBatch_find {p : Potential} {hits : List (Option Record)} (key : ℕ)
    (h : (p.finishBatch H env c batch hits).cache = some c') :
    c'.find key = c.find key ∨ ∃ s ∈ batch, key = p.key H s.input := by
  simp only [Potential.finishBatch] at h
  split at h
  · exact Or.inl (Option.some.inj h ▸ rfl)
  · rename_i served hserved
    split at h
    · exact Or.inl (Option.some.inj h ▸ rfl)
    · split at h
      · exact Or.inl (Option.some.inj h ▸ rfl)
      · obtain rfl := Option.some.inj h
        rcases writeBack_find p H env key _ 0 served c with hold | ⟨s, hs, hkey⟩
        · exact Or.inl hold
        · obtain ⟨x, hx, hsx⟩ := mapM_mem hserved hs
          exact Or.inr ⟨x.1, (List.of_mem_zip hx).1, serveHit_input hsx ▸ hkey⟩

/-- A batch writes under the keys of its own systems only. -/
theorem forceBatch_find {p : Potential} (key : ℕ)
    (h : (p.forceBatch H (some c) env batch).cache = some c') :
    c'.find key = c.find key ∨ ∃ s ∈ batch, key = p.key H s.input := by
  simp only [Potential.forceBatch] at h
  split at h
  · exact Or.inl (Option.some.inj h ▸ rfl)
  · rcases finishBatch_find key h with hold | ⟨s, hs, hkey⟩
    · exact Or.inl hold
    · obtain ⟨t, ht, rfl⟩ := List.mem_map.mp hs
      exact Or.inr ⟨t, ht, hkey⟩

/-- Writes under other keys leave a cache coherent. -/
theorem Coherent.frame (h : Coherent p H S c)
    (hkeep : ∀ fi ∈ S, c'.find (p.key H fi) = c.find (p.key H fi)) : Coherent p H S c' := by
  intro fi hfi hit hhit
  exact h fi hfi hit (hkeep fi hfi ▸ hhit)

end Frame

section Separation

/-- The evaluations of the systems of `S` by instances configured within `𝒞`. -/
def evaluations (𝒞 : Set Config) (S : Set ForceInput) : Set Evaluation :=
  { e | ∃ c ∈ 𝒞, ∃ fi ∈ S, e = ⟨c.type, c.paramsKey, fi⟩ }

/-- No two fingerprints of `𝒞` and no two evaluations collide. -/
structure NoCollisions (H : List UInt8 → ℕ) (𝒞 : Set Config) (S : Set ForceInput) : Prop where
  fingerprints : { data | ∃ c ∈ 𝒞, Config.fingerprint c = some data }.InjOn Fnv1a.h
  evaluations : (evaluations 𝒞 S).InjOn (cacheKey H)

variable {a b : Config}

theorem NoCollisions.fingerprint_eq (h : NoCollisions H 𝒞 S) (ha : a ∈ 𝒞) (hb : b ∈ 𝒞)
    (htype : a.type = b.type) (hkey : a.paramsKey = b.paramsKey) :
    a.fingerprint = b.fingerprint := by
  have hnone : a.fingerprint = none ↔ b.fingerprint = none := by
    have hc := a.ofType
    rw [htype] at hc
    cases b with
    | fortran q => simp [eq_fortran htype]
    | _ =>
      obtain ⟨_, rfl⟩ := hc
      simp [Config.fingerprint]
  unfold Config.paramsKey at hkey
  cases hfa : a.fingerprint with
  | none => exact (hnone.mp hfa).symm
  | some data =>
    cases hfb : b.fingerprint with
    | none => simp [hnone.mpr hfb] at hfa
    | some data' =>
      simp only [hfa, hfb] at hkey
      exact congrArg some (h.fingerprints ⟨a, ha, hfa⟩ ⟨b, hb, hfb⟩ hkey)

theorem NoCollisions.keys (h : NoCollisions H 𝒞 S) (ha : a ∈ 𝒞) :
    S.InjOn (((Instance.configured a).potential files E).key H) := by
  intro fi hfi gi hgi heq
  have he := h.evaluations ⟨a, ha, fi, hfi, rfl⟩ ⟨a, ha, gi, hgi, rfl⟩ heq
  exact congrArg Evaluation.input he

/-- Two configurations whose instances may meet under one key have one potential. -/
theorem NoCollisions.potential_eq (h : NoCollisions H 𝒞 S) (ha : a ∈ 𝒞) (hb : b ∈ 𝒞)
    (hagree : a.type = b.type → a.LeftOutAgree files b) {fi gi : ForceInput} (hfi : fi ∈ S)
    (hgi : gi ∈ S)
    (heq : ((Instance.configured a).potential files E).key H fi =
      ((Instance.configured b).potential files E).key H gi) :
    (Instance.configured a).potential files E =
      (Instance.configured b).potential files E := by
  have he := h.evaluations ⟨a, ha, fi, hfi, rfl⟩ ⟨b, hb, gi, hgi, rfl⟩ heq
  have htype : a.type = b.type := congrArg Evaluation.type he
  have hkey : a.paramsKey = b.paramsKey := congrArg Evaluation.paramsKey he
  have heff := (effective_eq_iff htype (h.fingerprint_eq ha hb htype hkey)).mpr (hagree htype)
  simp only [Instance.potential, Instance.configured, htype, hkey, heff]

end Separation

section Runs

/-- Every instance reports the fingerprint of its configuration, and every record under the key of
a configuration was written by a kernel that computes the same. -/
structure Sound (files : Files) (E : Config → PurePotential) (H : List UInt8 → ℕ) (𝒞 : Set Config)
    (S : Set ForceInput) (w : World) : Prop where
  instances : ∀ i ∈ w.instances, i.Fresh ∧ i.config ∈ 𝒞
  coherent : ∀ c ∈ 𝒞, Coherent ((Instance.configured c).potential files E) H S w.cache

variable {w w' : World}

/-- What one configuration writes is coherent for all of them. -/
theorem Sound.written (h : Sound files E H 𝒞 S w) (hnc : NoCollisions H 𝒞 S)
    (hagree : ∀ a ∈ 𝒞, ∀ b ∈ 𝒞, a.type = b.type → a.LeftOutAgree files b) {a : Config} (ha : a ∈ 𝒞)
    (hcoh : Coherent ((Instance.configured a).potential files E) H S c')
    (hframe : ∀ key, c'.find key = w.cache.find key ∨
      ∃ fi ∈ S, key = ((Instance.configured a).potential files E).key H fi) :
    Sound files E H 𝒞 S { w with cache := c' } := by
  refine ⟨h.instances, fun b hb => ?_⟩
  by_cases hmeet : ∃ fi ∈ S, ∃ gi ∈ S, ((Instance.configured a).potential files E).key H fi =
      ((Instance.configured b).potential files E).key H gi
  · obtain ⟨fi, hfi, gi, hgi, heq⟩ := hmeet
    exact hnc.potential_eq ha hb (hagree a ha b hb) hfi hgi heq ▸ hcoh
  · refine (h.coherent b hb).frame fun gi hgi => ?_
    rcases hframe (((Instance.configured b).potential files E).key H gi) with hold | ⟨fi, hfi, hkey⟩
    · exact hold
    · exact (hmeet ⟨fi, hfi, gi, hgi, hkey.symm⟩).elim

theorem Sound.step (hnc : NoCollisions H 𝒞 S)
    (hagree : ∀ a ∈ 𝒞, ∀ b ∈ 𝒞, a.type = b.type → a.LeftOutAgree files b)
    (hs : World.Step files E H 𝒞 S w w') (h : Sound files E H 𝒞 S w) : Sound files E H 𝒞 S w' := by
  cases hs with
  | construct c hc =>
    refine ⟨fun i hi => ?_, h.coherent⟩
    rcases List.mem_append.mp hi with hi | hi
    · exact h.instances i hi
    · obtain rfl := List.mem_singleton.mp hi
      exact ⟨Instance.fresh_configured c, hc⟩
  | change k i ch hi hmem =>
    refine ⟨fun j hj => ?_, h.coherent⟩
    rcases List.mem_or_eq_of_mem_set hj with hj | rfl
    · exact h.instances j hj
    · exact ⟨(h.instances i (List.mem_of_getElem? hi)).1.change files ch, hmem⟩
  | call i env fi c' hi hfi hc' =>
    obtain ⟨hfresh, hmem⟩ := h.instances i hi
    rw [hfresh.eq_configured] at hc'
    obtain ⟨_, _, c₂, hc₂, hcoh⟩ :=
      call_spec env (hnc.keys hmem) (h.coherent i.config hmem) hfi
    rw [hc'] at hc₂
    refine h.written hnc hagree hmem (Option.some.inj hc₂ ▸ hcoh) fun key => ?_
    rcases call_find key hc' with hold | hkey
    · exact Or.inl hold
    · exact Or.inr ⟨fi, hfi, hkey⟩
  | batch i env batch c' hi hin hc' =>
    obtain ⟨hfresh, hmem⟩ := h.instances i hi
    rw [hfresh.eq_configured] at hc'
    obtain ⟨_, _, _, c₂, hc₂, hcoh⟩ :=
      forceBatch_spec env (hnc.keys hmem) (h.coherent i.config hmem) hin
    rw [hc'] at hc₂
    refine h.written hnc hagree hmem (Option.some.inj hc₂ ▸ hcoh) fun key => ?_
    rcases forceBatch_find key hc' with hold | ⟨s, hs, hkey⟩
    · exact Or.inl hold
    · exact Or.inr ⟨s.input, hin s hs, hkey⟩
  | lose c' hlost =>
    exact ⟨h.instances, fun c hc => (h.coherent c hc).lose hlost⟩

theorem World.Reachable.sound (hnc : NoCollisions H 𝒞 S)
    (hagree : ∀ a ∈ 𝒞, ∀ b ∈ 𝒞, a.type = b.type → a.LeftOutAgree files b)
    (hw : World.Reachable files E H 𝒞 S w) : Sound files E H 𝒞 S w := by
  induction hw with
  | start c₀ hempty =>
    refine ⟨by simp, fun c _ fi _ hit hhit => ?_⟩
    simp [hempty] at hhit
  | step _ hs ih => exact ih.step hnc hagree hs

/-- A result of one energy, with the positions for forces. -/
def flat (e : Double) (fi : ForceInput) : ForceOut where
  F := fi.pos
  energy := e
  variance := 0
  stress := fun _ => 0
  hasStress := 0

def constant (e : Double) : PurePotential where
  type := .UNKNOWN
  paramsKey := 0
  caps := {}
  forceImpl fi _ := .ok (flat e fi)
  forceBatchImpl := forceLoop fun fi _ => .ok (flat e fi)
  forceImpl_congr _ _ _ _ _ _ := rfl
  length_F := by
    intro fi _ r h
    cases h
    exact fi.length_pos
  flag := by
    intro _ _ r h _
    cases h
    exact Or.inl rfl
  forceBatchImpl_eq_ok := Iff.rfl

/-- Kernels that tell one effective configuration from all others. -/
def marking (files : Files) (a d : Config) : PurePotential :=
  constant (if d = a.effective files then 1 else 0)

/-- The process after instances of `a` and of `b` were made and the first one evaluated `fi`. -/
def afterFirst (H : List UInt8 → ℕ) (a b : Config) (fi : ForceInput) : World where
  instances := [.configured a, .configured b]
  cache := emptyCache.addSerialized (cacheKey H ⟨a.type, a.paramsKey, fi⟩) (flat 1 fi) fi.nAtoms true

theorem reachable_afterFirst {a b : Config} (ha : a ∈ 𝒞) (hb : b ∈ 𝒞) (hfi : fi ∈ S) :
    World.Reachable files (marking files a) H 𝒞 S (afterFirst H a b fi) := by
  have hone : World.Reachable files (marking files a) H 𝒞 S ⟨[.configured a], emptyCache⟩ :=
    .step (.start emptyCache fun _ => rfl) (.construct a ha)
  have htwo : World.Reachable files (marking files a) H 𝒞 S
      ⟨[.configured a, .configured b], emptyCache⟩ := .step hone (.construct b hb)
  refine .step htwo (.call (.configured a) alone fi _ List.mem_cons_self hfi ?_)
  have hmarked : marking files a (a.effective files) = constant 1 := by simp [marking]
  simp only [Instance.potential, Instance.configured, hmarked]
  rfl

/-- A record found by a potential whose ranks decide alone is what its call returns. -/
theorem call_hit {p : Potential} {e : ForceOut} (hcaps : p.caps = {})
    (hfind : c.find (p.key H fi) = some (serialized e fi.nAtoms)) (hF : e.F.length = 3 * fi.nAtoms) :
    (p.call H (some c) env fi).result = .ok (reply e) := by
  have hdecide : p.decideHits env [some (serialized e fi.nAtoms)] =
      [some (serialized e fi.nAtoms)] := by
    simp [Potential.decideHits, hcaps]
  simp only [Potential.call, hfind, hdecide, List.head?_cons, Option.join_some,
    Potential.finishCall, deserializeHit_serialized hF, Except.map, reply_recorded]

/-- Where no instance is ever served a wrong result, one key means one function. -/
theorem effective_eq_of_transparent {a b : Config} (ha : a ∈ 𝒞) (hb : b ∈ 𝒞)
    (htype : a.type = b.type) (hkey : a.paramsKey = b.paramsKey) (hfi : fi ∈ S)
    (htransparent : ∀ (E : Config → PurePotential) (w : World), World.Reachable files E H 𝒞 S w →
      ∀ i ∈ w.instances, Transparent (i.potential files E) H S w.cache) :
    a.effective files = b.effective files := by
  have hcall := (htransparent (marking files a) _ (reachable_afterFirst ha hb hfi) (.configured b)
    (by simp [afterFirst])).call fi hfi alone
  have hfind : (afterFirst H a b fi).cache.find
      (((Instance.configured b).potential files (marking files a)).key H fi) =
        some (serialized (flat 1 fi) fi.nAtoms) := by
    simp [afterFirst, emptyCache, PotentialCache.addSerialized, PotentialCache.find, Potential.key,
      Instance.potential, Instance.configured, htype, hkey]
  rw [call_hit rfl hfind fi.length_pos] at hcall
  by_contra hne
  have hother : marking files a (b.effective files) = constant 0 := by simp [marking, Ne.symm hne]
  simp only [Instance.potential, Instance.configured, hother] at hcall
  have henergy : (1 : Double) = 0 := congrArg Reply.energy (Except.ok.inj hcall)
  cases henergy

/-- The classes without a fingerprint hash nothing, `UmaPot` neither cutoff nor cap, and plugins not
the functions behind their name. -/
theorem fingerprint_eq_of_not_leftOutAgree {a b : Config} (htype : a.type = b.type)
    (h : ¬ a.LeftOutAgree files b) : a.fingerprint = b.fingerprint := by
  have hc := a.ofType
  rw [htype] at hc
  cases b with
  | fortran q => rw [eq_fortran htype]
  | uma | plugin =>
    obtain ⟨_, rfl⟩ := hc
    simp only [Config.LeftOutAgree, Classical.not_imp] at h
    exact congrArg some h.1
  | lj | ljCluster | morse | zbl | cpmd | skala =>
    obtain ⟨_, rfl⟩ := hc
    exact (h trivial).elim
  | _ =>
    obtain ⟨_, rfl⟩ := hc
    rfl

/-- Over every run of constructions, parameter changes and evaluations of instances configured
within `𝒞` on one cache, the cached answers are those of the answering instance's own parameters,
whatever the kernels, exactly when configurations of one class in `𝒞` agree on what the class
reads and leaves out of its fingerprint. -/
theorem shared_cache_separates_iff (files : Files) (H : List UInt8 → ℕ) {𝒞 : Set Config}
    {S : Set ForceInput} (hnc : NoCollisions H 𝒞 S) (hS : S.Nonempty) :
    (∀ (E : Config → PurePotential) (w : World), World.Reachable files E H 𝒞 S w →
        ∀ i ∈ w.instances, Transparent (i.potential files E) H S w.cache) ↔
      ∀ a ∈ 𝒞, ∀ b ∈ 𝒞, a.type = b.type → a.LeftOutAgree files b := by
  constructor
  · intro htransparent a ha b hb htype
    by_contra hleft
    obtain ⟨fi, hfi⟩ := hS
    have hfp := fingerprint_eq_of_not_leftOutAgree htype hleft
    have hkey : a.paramsKey = b.paramsKey := by simp only [Config.paramsKey, hfp]
    have heff := effective_eq_of_transparent ha hb htype hkey hfi htransparent
    exact hleft ((effective_eq_iff htype hfp).mp heff)
  · intro hagree E w hw i hi
    have hsound := hw.sound hnc hagree
    obtain ⟨hfresh, hmem⟩ := hsound.instances i hi
    rw [hfresh.eq_configured]
    exact (hsound.coherent i.config hmem).transparent (hnc.keys hmem)

/-- A system with no packages, models or engines. -/
def bareSystem : Files where
  uma _ := ⟨none, none⟩
  metatomic _ _ := ⟨noBytes, true, false, false, fun _ => noBytes⟩
  mopacc _ := none
  nwchemc _ := none

/-- The default `XTBConfig`, with the method of `m`. -/
def xtbOf (m : GFNMethod) : Config :=
  .xtb
    { method := m
      accuracy := 0x3ff0000000000000
      electronic_temperature := 0x4072c00000000000
      max_iterations := 250
      charge := 0
      uhf := 0 }

/-- A Metatomic configuration of charge `charge`, which the model is not handed. -/
def metatomicOf (charge : Int32) : Config :=
  .metatomic
    { model_path := float64
      device := noBytes
      length_unit := noBytes
      extensions_directory := noBytes
      check_consistency := false
      uncertainty_threshold := 0xbff0000000000000
      dtype_override := noBytes
      random_rotation := false
      n_symmetry_rotations := 0
      so3_probe_scatter := false
      torch_determinism := .Fast
      charge := charge
      spin := 1
      attach_system_extras := false }

theorem noCollisions_unhashed {a b : Config} (htype : a.type = b.type)
    (ha : a.fingerprint = none) (hb : b.fingerprint = none) :
    NoCollisions Words.number {a, b} {atomAt 1} where
  fingerprints := by
    rintro data ⟨c, rfl | rfl, hdata⟩
    · simp [ha] at hdata
    · simp [hb] at hdata
  evaluations := by
    have hkey : a.paramsKey = b.paramsKey := by simp [Config.paramsKey, ha, hb]
    rintro x ⟨c, rfl | rfl, fi, rfl, rfl⟩ y ⟨d, rfl | rfl, gi, rfl, rfl⟩ _ <;> simp [htype, hkey]

/-- A GFN2-xTB instance is served the energy of a GFN1-xTB one. -/
theorem not_shared_cache_separates :
    ¬ ∀ (files : Files) (H : List UInt8 → ℕ) (𝒞 : Set Config) (S : Set ForceInput),
      NoCollisions H 𝒞 S →
      ∀ (E : Config → PurePotential) (w : World), World.Reachable files E H 𝒞 S w →
        ∀ i ∈ w.instances, Transparent (i.potential files E) H S w.cache := by
  intro h
  have hmem : atomAt 1 ∈ ({atomAt 1} : Set ForceInput) := rfl
  have heff : (xtbOf .GFN1xTB).effective bareSystem = (xtbOf .GFN2xTB).effective bareSystem :=
    effective_eq_of_transparent (Or.inl rfl) (Or.inr rfl) rfl rfl hmem
      (h bareSystem Words.number {xtbOf .GFN1xTB, xtbOf .GFN2xTB} {atomAt 1}
        (noCollisions_unhashed rfl rfl rfl))
  exact absurd heff (by decide)

theorem shared_cache_separates_unread_charge :
    Transparent ((Instance.configured (metatomicOf 1)).potential bareSystem
        (marking bareSystem (metatomicOf 0)))
      Words.number {atomAt 1} (afterFirst Words.number (metatomicOf 0) (metatomicOf 1)
        (atomAt 1)).cache :=
  (shared_cache_separates_iff bareSystem Words.number
    (noCollisions_unhashed (a := metatomicOf 0) (b := metatomicOf 1) rfl rfl rfl)
    ⟨atomAt 1, rfl⟩).mpr (by rintro a (rfl | rfl) b (rfl | rfl) _ <;> rfl) _ _
    (reachable_afterFirst (Or.inl rfl) (Or.inr rfl) rfl) (.configured (metatomicOf 1))
    (List.mem_cons_of_mem _ List.mem_cons_self)

end Runs

end Rgpot.Cache
