import Rgpot.Cache.Batch

/-! Cached evaluation equals uncached evaluation over every run of the two entry points. -/
namespace Rgpot.Cache
open Fallible

variable {p : PurePotential} {H : List UInt8 → ℕ} {S : Set ForceInput} {c c' : PotentialCache}
  {fi : ForceInput} {env : Env} {batch : List System} {hits : List (Option Record)}

/-- A result slot holds the result `e`; the stress counts when it is reported. -/
structure Agrees (o e : ForceOut) : Prop where
  energy : o.energy = e.energy
  F : o.F = e.F
  variance : o.variance = e.variance
  hasStress : o.hasStress = e.hasStress
  stress : o.hasStress ≠ 0 → o.stress = e.stress

/-- Every record under the key of a system of `S` was written for that system. -/
def Coherent (p : PurePotential) (H : List UInt8 → ℕ) (S : Set ForceInput)
    (c : PotentialCache) : Prop :=
  ∀ fi ∈ S, ∀ hit, c.find (p.key H fi) = some hit →
    ∃ e, p.eval fi = .ok e ∧ hit = serialized e fi.nAtoms

/-- A decided lookup answers with a record written for its system, or not at all. -/
def Faithful (p : PurePotential) (fi : ForceInput) (hit : Option Record) : Prop :=
  ∀ value, hit = some value → ∃ e, p.eval fi = .ok e ∧ value = serialized e fi.nAtoms

/-- The slot `o` answers the system `s`. -/
def Answers (p : PurePotential) (s : System) (o : ForceOut) : Prop :=
  ∃ e, p.eval s.input = .ok e ∧ Agrees o e

theorem Agrees.refl (o : ForceOut) : Agrees o o := ⟨rfl, rfl, rfl, rfl, fun _ => rfl⟩

theorem PurePotential.forceImpl_cleared (p : PurePotential) (fi : ForceInput) (o : ForceOut) :
    p.forceImpl fi o.cleared = p.eval fi := p.forceImpl_congr _ _ _ rfl rfl rfl

theorem agrees_recorded {e : ForceOut} (h : p.eval fi = .ok e) : Agrees (recorded e) e := by
  have hflag := p.flag h rfl
  refine ⟨rfl, rfl, rfl, ?_, ?_⟩
  · rcases hflag with h0 | h1 <;> simp [recorded, *]
  · intro hs
    by_cases h0 : e.hasStress = 0 <;> simp_all [recorded]

theorem reply_recorded (e : ForceOut) : reply (recorded e) = reply e := rfl

section Store

theorem find_addSerialized (c : PotentialCache) (key key' : ℕ) (out : ForceOut) (n : ℕ)
    (kept : Bool) :
    (c.addSerialized key out n kept).find key' = c.find key' ∨
      key' = key ∧ (c.addSerialized key out n kept).find key' = some (serialized out n) := by
  obtain ⟨_ | db⟩ := c
  · exact Or.inl rfl
  · cases kept
    · exact Or.inl rfl
    · by_cases hk : key' = key
      · exact Or.inr ⟨hk, by simp [PotentialCache.addSerialized, PotentialCache.find, hk]⟩
      · exact Or.inl (by simp [PotentialCache.addSerialized, PotentialCache.find, hk])

theorem coherent_empty : Coherent p H S ⟨some fun _ => none⟩ := by
  intro fi _ hit h
  simp [PotentialCache.find] at h

/-- Losing records keeps a cache coherent. -/
theorem Coherent.lose (h : Coherent p H S c)
    (hlost : ∀ key, c'.find key = none ∨ c'.find key = c.find key) : Coherent p H S c' := by
  intro fi hfi hit hhit
  rcases hlost (p.key H fi) with hnone | hsame
  · simp [hnone] at hhit
  · exact h fi hfi hit (hsame ▸ hhit)

theorem Coherent.addSerialized (hkeys : S.InjOn (p.key H)) (h : Coherent p H S c) (hfi : fi ∈ S)
    {e : ForceOut} (he : p.eval fi = .ok e) (kept : Bool) :
    Coherent p H S (c.addSerialized (p.key H fi) e fi.nAtoms kept) := by
  intro gi hgi hit hhit
  rcases find_addSerialized c (p.key H fi) (p.key H gi) e fi.nAtoms kept with hsame | ⟨hkey, hnew⟩
  · exact h gi hgi hit (hsame ▸ hhit)
  · obtain rfl := hkeys hgi hfi hkey
    rw [hnew] at hhit
    exact ⟨e, he, (Option.some.inj hhit).symm⟩

theorem Coherent.storeAll (hkeys : S.InjOn (p.key H)) {pairs : List (System × ForceOut)}
    (hpairs : ∀ x ∈ pairs, x.1.input ∈ S ∧ p.eval x.1.input = .ok x.2) (j : ℕ)
    (h : Coherent p H S c) : Coherent p H S (p.storeAll H env pairs j c) := by
  induction pairs generalizing j c with
  | nil => exact h
  | cons x pairs ih =>
    obtain ⟨hS, he⟩ := hpairs x List.mem_cons_self
    exact ih (fun y hy => hpairs y (List.mem_cons_of_mem _ hy)) (j + 1)
      (h.addSerialized hkeys hS he _)

end Store

section Decision

theorem Faithful.none : Faithful p fi none := by
  intro value h
  cases h

theorem forall₂_keepAgreed {R : System → Option Record → Prop} (hnone : ∀ s, R s none)
    (h : List.Forall₂ R batch hits) {flags : List Bool} (hlen : flags.length = hits.length) :
    List.Forall₂ R batch (keepAgreed hits flags) := by
  induction h generalizing flags with
  | nil => simp [keepAgreed]
  | @cons s hit ss hits hs _ ih =>
    cases flags with
    | nil => simp at hlen
    | cons flag flags =>
      refine List.Forall₂.cons ?_ (ih (by simpa using hlen))
      cases flag
      · exact hnone s
      · exact hs

theorem forall₂_decideHits {R : System → Option Record → Prop} (hnone : ∀ s, R s none)
    (h : List.Forall₂ R batch hits) : List.Forall₂ R batch (p.decideHits env hits) := by
  unfold Potential.decideHits
  split
  · exact forall₂_keepAgreed hnone h (by simp [calculatorAgree])
  · exact h

/-- On a coherent cache the batch filter on result metadata never drops a record. -/
theorem Coherent.batchLookup (h : Coherent p H S c) (hfi : fi ∈ S) :
    p.batchLookup H c fi = c.find (p.key H fi) := by
  unfold Potential.batchLookup
  cases hf : c.find (p.key H fi) with
  | none => rfl
  | some hit =>
    obtain ⟨e, he, rfl⟩ := h fi hfi hit hf
    simp [hasResultMetadata_serialized (p.length_F he)]

theorem Coherent.faithful (h : Coherent p H S c) (env : Env) (batch : List System)
    (hin : ∀ s ∈ batch, s.input ∈ S) :
    List.Forall₂ (fun s hit => Faithful p s.input hit) batch
      (p.decideHits env (batch.map fun s => c.find (p.key H s.input))) := by
  apply forall₂_decideHits fun s => Faithful.none
  rw [List.forall₂_map_right_iff, List.forall₂_same]
  exact fun s hs value hvalue => h s.input (hin s hs) value hvalue

end Decision

section Batch

/-- Hits are served with the results they were recorded for, and filling in the kernel's results
answers every system of the batch. -/
theorem serve_answers (h : List.Forall₂ (fun s hit => Faithful p s.input hit) batch hits) :
    ∃ served, (batch.zip hits).mapM serveHit = .ok served ∧ served.length = hits.length ∧
      missed served hits = missed batch hits ∧
      ∀ ms, List.Forall₂ (fun s m => p.eval s.input = .ok m) (missed batch hits) ms →
        List.Forall₂ (Answers p) batch ((filled served hits ms).map System.out) := by
  induction h with
  | nil => exact ⟨[], rfl, rfl, rfl, fun ms _ => by simp [filled]⟩
  | @cons s hit ss hits hs _ ih =>
    obtain ⟨served, hserved, hlen, hmissed, hfill⟩ := ih
    cases hit with
    | none =>
      refine ⟨s :: served, ?_, by simp [hlen], by simp [missed, hmissed], ?_⟩
      · rw [List.zip_cons_cons, List.mapM_cons, hserved]
        rfl
      · intro ms hms
        obtain ⟨m, ms, hm, hrest, rfl⟩ := List.forall₂_cons_left_iff.mp hms
        exact List.Forall₂.cons ⟨m, hm, Agrees.refl m⟩ (hfill ms hrest)
    | some value =>
      obtain ⟨e, he, rfl⟩ := hs value rfl
      refine ⟨{ s with out := recorded e } :: served, ?_, by simp [hlen], by simp [missed, hmissed],
        ?_⟩
      · rw [List.zip_cons_cons, List.mapM_cons, hserved]
        simp [serveHit, deserializeHit_serialized (p.length_F he), bind, Except.bind, pure,
          Except.pure]
      · intro ms hms
        exact List.Forall₂.cons ⟨e, he, agrees_recorded he⟩ (hfill ms hms)

/-- The kernel's answer on systems with reset slots is the uncached result of each. -/
theorem forceBatchImpl_eq_ok_iff {ms : List ForceOut}
    (hready : ∀ s ∈ batch, p.forceImpl s.input s.out = p.eval s.input) :
    p.forceBatchImpl batch = .ok ms ↔
      List.Forall₂ (fun s m => p.eval s.input = .ok m) batch ms := by
  rw [p.forceBatchImpl_eq_ok, forceLoop, mapM_congr hready, mapM_eq_ok_iff]

/-- `forceBatch` after its decisions, on slots whose reset fields the kernel may rely on. -/
theorem finishBatch_spec (env : Env) (hkeys : S.InjOn (p.key H)) (hc : Coherent p H S c)
    (hin : ∀ s ∈ batch, s.input ∈ S)
    (hready : ∀ s ∈ batch, p.forceImpl s.input s.out = p.eval s.input)
    (hhits : List.Forall₂ (fun s hit => Faithful p s.input hit) batch hits) :
    let r := p.finishBatch H env c batch hits
    r.received = (missed batch hits).map System.input ∧
      (∀ outs, r.result = .ok outs → List.Forall₂ (Answers p) batch outs) ∧
      ((∀ s ∈ batch, ∃ e, p.eval s.input = .ok e) → ∃ outs, r.result = .ok outs) ∧
      ∃ c', r.cache = some c' ∧ Coherent p H S c' := by
  obtain ⟨served, hserved, hlen, hmissed, hfill⟩ := serve_answers hhits
  have hsub := missed_subset batch hits
  have hkernel : ∀ ms, p.forceBatchImpl (missed served hits) = .ok ms ↔
      List.Forall₂ (fun s m => p.eval s.input = .ok m) (missed batch hits) ms := by
    intro ms
    rw [hmissed]
    exact forceBatchImpl_eq_ok_iff fun s hs => hready s (hsub hs)
  have hcompact : compactMisses served (missIndices hits 0) = missed served hits :=
    compactMisses_append [] hlen
  simp only [Potential.finishBatch, hserved, hcompact]
  by_cases hnone : missIndices hits 0 = []
  · -- every system was a hit: the served slots are the answer
    have hall := missIndices_eq_nil.mp hnone
    have hempty := missed_eq_nil batch hall
    have hanswers := hfill [] (by rw [hempty]; exact List.Forall₂.nil)
    rw [filled_nil hall] at hanswers
    simp only [hnone, if_true, hempty, List.map_nil, true_and]
    refine ⟨?_, fun _ => ⟨_, rfl⟩, c, rfl, hc⟩
    intro outs houts
    cases houts
    exact hanswers
  · simp only [hnone, if_false]
    cases hms : p.forceBatchImpl (missed served hits) with
    | error e =>
      refine ⟨by simp [hmissed], by simp, ?_, c, rfl, hc⟩
      intro hall
      obtain ⟨ms, hok⟩ := exists_mapM_eq_ok.mpr fun s hs => hall s (hsub hs)
      rw [(hkernel ms).mpr (mapM_eq_ok_iff.mp hok)] at hms
      cases hms
    | ok ms =>
      have hall := (hkernel ms).mp hms
      have hwrite := p.writeBack_append H env [] hlen
        (by rw [hmissed]; exact hall.length_eq.symm) 0 c
      simp only [List.nil_append, List.length_nil] at hwrite
      simp only [hwrite, hmissed, true_and]
      refine ⟨?_, fun _ => ⟨_, rfl⟩, _, rfl, ?_⟩
      · intro outs houts
        cases houts
        exact hfill ms hall
      · refine hc.storeAll hkeys ?_ 0
        rintro ⟨s, m⟩ hx
        exact ⟨hin s (hsub (List.of_mem_zip hx).1), List.forall₂_zip hall hx⟩

end Batch

section EntryPoints

/-- The batch `forceBatch` works on: result slots reset. -/
def resetSlots (batch : List System) : List System :=
  batch.map fun s => { s with out := s.out.cleared }

theorem forall₂_answers_reset {outs : List ForceOut} :
    List.Forall₂ (Answers p) (resetSlots batch) outs ↔ List.Forall₂ (Answers p) batch outs := by
  rw [resetSlots, List.forall₂_map_left_iff]
  rfl

theorem uncached_eq_ok_iff {refs : List ForceOut} :
    (p.forceBatch H none env batch).result = .ok refs ↔
      List.Forall₂ (fun s e => p.eval s.input = .ok e) batch refs := by
  by_cases hb : batch = []
  · subst hb
    simp [Potential.forceBatch, eq_comm]
  · rw [Potential.forceBatch, if_neg hb]
    change p.forceBatchImpl (resetSlots batch) = _ ↔ _
    rw [forceBatchImpl_eq_ok_iff, resetSlots, List.forall₂_map_left_iff]
    intro s hs
    obtain ⟨s, _, rfl⟩ := List.mem_map.mp hs
    exact p.forceImpl_cleared _ _

theorem missed_reset (batch : List System) (hits : List (Option Record)) :
    (missed (resetSlots batch) hits).map System.input = (missed batch hits).map System.input := by
  induction batch generalizing hits with
  | nil => simp [resetSlots]
  | cons s ss ih =>
    rcases hits with _ | ⟨_ | hit, hits⟩
    · simp [resetSlots, missed]
    · exact congrArg (s.input :: ·) (ih hits)
    · exact ih hits

theorem forceBatch_spec (env : Env) (hkeys : S.InjOn (p.key H)) (hc : Coherent p H S c)
    (hin : ∀ s ∈ batch, s.input ∈ S) :
    let r := p.forceBatch H (some c) env batch
    r.received = (missed batch (p.decideHits env
        (batch.map fun s => c.find (p.key H s.input)))).map System.input ∧
      (∀ outs, r.result = .ok outs → List.Forall₂ (Answers p) batch outs) ∧
      ((∀ s ∈ batch, ∃ e, p.eval s.input = .ok e) → ∃ outs, r.result = .ok outs) ∧
      ∃ c', r.cache = some c' ∧ Coherent p H S c' := by
  by_cases hb : batch = []
  · subst hb
    simpa [Potential.forceBatch, missed] using hc
  · have hlookup : ((resetSlots batch).map fun s => p.batchLookup H c s.input) =
        (batch.map fun s => c.find (p.key H s.input)) := by
      simp only [resetSlots, List.map_map]
      exact List.map_congr_left fun s hs => hc.batchLookup (hin s hs)
    have hin' : ∀ s ∈ resetSlots batch, s.input ∈ S := by
      intro s hs
      obtain ⟨t, ht, rfl⟩ := List.mem_map.mp hs
      exact hin t ht
    have hready : ∀ s ∈ resetSlots batch, p.forceImpl s.input s.out = p.eval s.input := by
      intro s hs
      obtain ⟨s, _, rfl⟩ := List.mem_map.mp hs
      exact p.forceImpl_cleared _ _
    have hhits : List.Forall₂ (fun s hit => Faithful p s.input hit) (resetSlots batch)
        (p.decideHits env (batch.map fun s => c.find (p.key H s.input))) := by
      rw [resetSlots, List.forall₂_map_left_iff]
      exact hc.faithful env batch hin
    obtain ⟨hreceived, hok, hreturns, hcache⟩ :=
      finishBatch_spec env hkeys hc hin' hready hhits
    have hunfold : p.forceBatch H (some c) env batch = p.finishBatch H env c (resetSlots batch)
        (p.decideHits env (batch.map fun s => c.find (p.key H s.input))) := by
      rw [← hlookup, Potential.forceBatch, if_neg hb]
      rfl
    rw [hunfold]
    refine ⟨hreceived.trans (missed_reset _ _),
      fun outs houts => forall₂_answers_reset.mp (hok outs houts), fun hall => hreturns ?_, hcache⟩
    intro s hs
    obtain ⟨t, ht, rfl⟩ := List.mem_map.mp hs
    exact hall t ht

theorem call_spec (env : Env) (hkeys : S.InjOn (p.key H)) (hc : Coherent p H S c) (hfi : fi ∈ S) :
    let r := p.call H (some c) env fi
    r.result = (p.call H none env fi).result ∧
      r.received =
        (if (p.decideHits env [c.find (p.key H fi)]).head?.join.isNone then [fi] else []) ∧
      ∃ c', r.cache = some c' ∧ Coherent p H S c' := by
  have hfaith : Faithful p fi (p.decideHits env [c.find (p.key H fi)]).head?.join := by
    have hone := hc.faithful env [⟨fi, ForceOut.zero fi.nAtoms⟩] (by simpa using hfi)
    obtain ⟨hit, rest, hhit, _, heq⟩ := List.forall₂_cons_left_iff.mp hone
    simp only [List.map_cons, List.map_nil] at heq
    rw [heq]
    exact hhit
  simp only [Potential.call]
  cases hd : (p.decideHits env [c.find (p.key H fi)]).head?.join with
  | some hit =>
    rw [hd] at hfaith
    obtain ⟨e, he, rfl⟩ := hfaith hit rfl
    have heval : p.forceImpl fi (ForceOut.zero fi.nAtoms) = .ok e := he
    simp [Potential.finishCall, deserializeHit_serialized (p.length_F he), heval, Except.map,
      reply_recorded, hc]
  | none =>
    simp only [Potential.finishCall]
    cases he : p.forceImpl fi (ForceOut.zero fi.nAtoms) with
    | error e => simpa [Except.map] using hc
    | ok e =>
      have heval : p.eval fi = .ok e := he
      simpa [Except.map] using hc.addSerialized hkeys hfi heval (env.kept 0)

end EntryPoints

section Runs

/-- The states of a cache over a run of both entry points on systems of `S`, between which records
may also get lost. -/
inductive Run (p : PurePotential) (H : List UInt8 → ℕ) (S : Set ForceInput)
    (c₀ : PotentialCache) : PotentialCache → Prop
  | start : Run p H S c₀ c₀
  | call {c c' : PotentialCache} (env : Env) (fi : ForceInput) : Run p H S c₀ c → fi ∈ S →
      (p.call H (some c) env fi).cache = some c' → Run p H S c₀ c'
  | batch {c c' : PotentialCache} (env : Env) (batch : List System) : Run p H S c₀ c → (∀ s ∈ batch, s.input ∈ S) →
      (p.forceBatch H (some c) env batch).cache = some c' → Run p H S c₀ c'
  | lose {c c' : PotentialCache} : Run p H S c₀ c → (∀ key, c'.find key = none ∨ c'.find key = c.find key) →
      Run p H S c₀ c'

theorem Run.coherent (hkeys : S.InjOn (p.key H)) {c₀ : PotentialCache} (h₀ : Coherent p H S c₀)
    (h : Run p H S c₀ c) : Coherent p H S c := by
  induction h with
  | start => exact h₀
  | call env fi _ hfi hc' ih =>
    obtain ⟨_, _, c₂, hc₂, hcoh⟩ := call_spec env hkeys ih hfi
    rw [hc'] at hc₂
    exact Option.some.inj hc₂ ▸ hcoh
  | batch env batch _ hin hc' ih =>
    obtain ⟨_, _, _, c₂, hc₂, hcoh⟩ := forceBatch_spec env hkeys ih hin
    rw [hc'] at hc₂
    exact Option.some.inj hc₂ ▸ hcoh
  | lose _ hlost ih => exact ih.lose hlost

theorem answers_split {outs : List ForceOut} (h : List.Forall₂ (Answers p) batch outs) :
    ∃ refs, List.Forall₂ (fun s e => p.eval s.input = .ok e) batch refs ∧
      List.Forall₂ Agrees outs refs := by
  induction h with
  | nil => exact ⟨[], .nil, .nil⟩
  | @cons s o ss outs hs _ ih =>
    obtain ⟨e, he, ho⟩ := hs
    obtain ⟨refs, hrefs, hagree⟩ := ih
    exact ⟨e :: refs, .cons he hrefs, .cons ho hagree⟩

/-- In every state a run reaches from a coherent cache, both entry points give what they give
without a cache, and the kernel is handed exactly the systems whose decided lookup is a miss. -/
theorem cached_eq_uncached (p : PurePotential) (H : List UInt8 → ℕ) {S : Set ForceInput}
    (hkeys : S.InjOn (p.key H)) {c₀ c : PotentialCache} (h₀ : Coherent p H S c₀)
    (hrun : Run p H S c₀ c) :
    (∀ fi ∈ S, ∀ env, let r := p.call H (some c) env fi
      r.result = (p.call H none env fi).result ∧
        r.received =
          if (p.decideHits env [c.find (p.key H fi)]).head?.join.isNone then [fi] else []) ∧
    ∀ batch, (∀ s ∈ batch, s.input ∈ S) → ∀ env, let r := p.forceBatch H (some c) env batch
      let u := p.forceBatch H none env batch
      (∀ outs, r.result = .ok outs → ∃ refs, u.result = .ok refs ∧ List.Forall₂ Agrees outs refs) ∧
      (∀ refs, u.result = .ok refs → ∃ outs, r.result = .ok outs) ∧
      r.received = (missed batch (p.decideHits env
        (batch.map fun s => c.find (p.key H s.input)))).map System.input := by
  have hc := hrun.coherent hkeys h₀
  refine ⟨fun fi hfi env => ?_, fun batch hin env => ?_⟩
  · obtain ⟨hresult, hreceived, _⟩ := call_spec env hkeys hc hfi
    exact ⟨hresult, hreceived⟩
  · obtain ⟨hreceived, hok, hreturns, _⟩ := forceBatch_spec env hkeys hc hin
    refine ⟨fun outs houts => ?_, fun refs hrefs => hreturns fun s hs => ?_, hreceived⟩
    · obtain ⟨refs, hrefs, hagree⟩ := answers_split (hok outs houts)
      exact ⟨refs, uncached_eq_ok_iff.mpr hrefs, hagree⟩
    · have hrefs' := mapM_eq_ok_iff.mpr (uncached_eq_ok_iff.mp hrefs)
      exact exists_mapM_eq_ok.mp ⟨refs, hrefs'⟩ s hs

/-- A kernel that echoes the positions, with a variance and a stress. -/
def echo : PurePotential where
  type := .LJ
  paramsKey := 0x726573756c74
  caps := { stress := true }
  forceImpl fi _ := .ok
    { F := fi.pos
      energy := fi.pos.headD 0
      variance := 0x3fd0000000000000
      stress := fun i => UInt64.ofNat i
      hasStress := 1 }
  forceBatchImpl := forceLoop fun fi _ => .ok
    { F := fi.pos
      energy := fi.pos.headD 0
      variance := 0x3fd0000000000000
      stress := fun i => UInt64.ofNat i
      hasStress := 1 }
  forceImpl_congr _ _ _ _ _ _ := rfl
  length_F := by
    intro fi _ r h
    cases h
    exact fi.length_pos
  flag := by
    intro _ _ r h _
    cases h
    exact Or.inr rfl
  forceBatchImpl_eq_ok := Iff.rfl

/-- One atom on the x axis in a unit box. -/
def atomAt (x : Double) : ForceInput where
  nAtoms := 1
  pos := [x, 0, 0]
  atmnrs := [1]
  box := [1, 0, 0, 0, 1, 0, 0, 0, 1]
  length_pos := rfl
  length_atmnrs := rfl
  length_box := rfl

def emptyCache : PotentialCache := ⟨some fun _ => none⟩

def alone : Env := ⟨fun _ => true, fun _ => true⟩

theorem injOn_echo_key : Set.InjOn (echo.key Words.number) {atomAt 1, atomAt 2} := by
  have hne : echo.key Words.number (atomAt 1) ≠ echo.key Words.number (atomAt 2) := by
    decide +kernel
  rintro x (rfl | rfl) y (rfl | rfl) h
  · rfl
  · exact (hne h).elim
  · exact (hne h.symm).elim
  · rfl

theorem cached_eq_uncached_echo :
    let c := (echo.call Words.number (some emptyCache) alone (atomAt 1)).cache.getD emptyCache
    (echo.call Words.number (some c) alone (atomAt 1)).result =
      (echo.call Words.number none alone (atomAt 1)).result :=
  ((cached_eq_uncached echo Words.number injOn_echo_key coherent_empty
    (.call alone (atomAt 1) .start (Or.inl rfl) rfl)).1 (atomAt 1) (Or.inl rfl) alone).1

end Runs

end Rgpot.Cache
