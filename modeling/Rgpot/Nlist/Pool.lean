import Rgpot.Nlist.Slots

/-! The process-wide pool: lookup and store steps of calls that may interleave. -/
namespace Rgpot.Nlist

/-- A slot with the identity of its shared pointer. -/
structure Slot (K : Type) where
  id : ℕ
  list : CachedPairList K

def kMaxSlots : ℕ := 8

variable {K : Type} [Field K] [LinearOrder K] [FloorRing K] [OutwardRoot K] {σ : Type}

/-- Most recently used slot valid for `R`, and the slots with it moved to the front. -/
def lookup (slots : List (Slot K)) (R : Positions K) (n : ℕ) (box : Box K) (opt : Options K) :
    Option (Slot K) × List (Slot K) :=
  match slots.find? fun s => s.list.valid R n box opt with
  | some s => (some s, s :: slots.eraseP fun s => s.list.valid R n box opt)
  | none => (none, slots)

/-- `fresh` at the front, replacing the phantom `hit`; past `kMaxSlots` the last slot goes. -/
def store (slots : List (Slot K)) (fresh : Slot K) (hit : Option (Slot K)) : List (Slot K) :=
  let kept := match hit with
    | some h => slots.eraseP fun s => s.id = h.id
    | none => slots
  if kMaxSlots < (fresh :: kept).length then (fresh :: kept).dropLast else fresh :: kept

/-- `PairListCache::accumulate` after its lookup: the sums, and the list to store. -/
def accumulateWith (hit : Option (Slot K)) (R : Positions K) (n : ℕ) (box : Box K)
    (opt : Options K) (law : PairLaw K σ) (F : ℕ → Vec3 K) (obs : σ) :
    Except Exn (Sums K σ × Option (CachedPairList K)) :=
  match hit with
  | some slot =>
    if slot.list.phantom = false then do
      let sums ← slot.list.accumulate law R F obs
      return (sums, none)
    else do
      let fresh ← rebuild R n box opt
      let sums ← fresh.accumulate law R F obs
      return (sums, some fresh)
  | none => do
    let fresh ← buildForEval R n box opt
    let sums ← fresh.accumulate law R F obs
    return (sums, if fresh.mic then some fresh.dropPairs else none)

/-- `PairListCache::evaluate` after its lookup: the visited records, and the list to store. -/
def evaluateWith (hit : Option (Slot K)) (R : Positions K) (n : ℕ) (box : Box K)
    (opt : Options K) : Except Exn (List (Visit K) × Option (CachedPairList K)) :=
  match hit with
  | some slot =>
    if slot.list.phantom = false then do
      let visits ← slot.list.forEach R
      return (visits, none)
    else do
      let (fresh, visits) ← rebuildFused R n box opt
      return (visits, some fresh)
  | none => visitOnly R n box opt

/-- The pool with the stores that calls still owe. -/
structure PoolState (K : Type) where
  slots : List (Slot K)
  pending : List (CachedPairList K × Option (Slot K))
  nextId : ℕ

def PoolState.initial : PoolState K := ⟨[], [], 0⟩

/-- What a call owes after its evaluation. -/
def owed {α : Type} (hit : Option (Slot K)) :
    Except Exn (α × Option (CachedPairList K)) → List (CachedPairList K × Option (Slot K))
  | .ok (_, some fresh) => [(fresh, hit)]
  | _ => []

/-- A lookup with the evaluation it leads to. -/
def PoolState.call {α : Type} (st : PoolState K) (R : Positions K) (n : ℕ) (box : Box K)
    (opt : Options K)
    (run : Option (Slot K) → Except Exn (α × Option (CachedPairList K))) : PoolState K :=
  let (hit, slots) := lookup st.slots R n box opt
  { st with slots := slots, pending := st.pending ++ owed hit (run hit) }

/-- One atomic step of any thread. -/
inductive Step : PoolState K → PoolState K → Prop where
  | accumulate {σ : Type} (st : PoolState K) (R : Positions K) (n : ℕ) (box : Box K)
      (opt : Options K) (law : PairLaw K σ) (F : ℕ → Vec3 K) (obs : σ) :
      Step st (st.call R n box opt fun hit => accumulateWith hit R n box opt law F obs)
  | evaluate (st : PoolState K) (R : Positions K) (n : ℕ) (box : Box K) (opt : Options K) :
      Step st (st.call R n box opt fun hit => evaluateWith hit R n box opt)
  | store (slots : List (Slot K)) (before after : List (CachedPairList K × Option (Slot K)))
      (fresh : CachedPairList K) (hit : Option (Slot K)) (nextId : ℕ) :
      Step ⟨slots, before ++ (fresh, hit) :: after, nextId⟩
        ⟨store slots ⟨nextId, fresh⟩ hit, before ++ after, nextId + 1⟩

def Reachable (st : PoolState K) : Prop := Relation.ReflTransGen Step PoolState.initial st

/-- A slot is a phantom of a cacheable box, or a capture for one. -/
inductive FromBuild (l : CachedPairList K) : Prop where
  | phantom (hp : l.phantom = true) (hmic : isMic l.n l.boxref l.opt = true)
  | captured (R : Positions K) (n : ℕ) (box : Box K) (opt : Options K)
      (hmic : isMic n box opt = true) (h : rebuild R n box opt = .ok l)

structure PoolState.Sound (st : PoolState K) : Prop where
  slots : ∀ s ∈ st.slots, FromBuild s.list
  pending : ∀ p ∈ st.pending, FromBuild p.1

omit [FloorRing K] [OutwardRoot K] in
theorem valid_facts {l : CachedPairList K} {R : Positions K} {n : ℕ} {box : Box K}
    {opt : Options K} (h : l.valid R n box opt = true) :
    l.n = n ∧ l.opt = opt ∧ l.boxref = box ∧ (l.complete = true ∨ Within R l.Rref n opt) := by
  unfold CachedPairList.valid at h
  split at h
  · cases h
  next h1 =>
  split at h
  · cases h
  next h2 =>
  simp only [not_or, ne_eq, not_not] at h1 h2
  refine ⟨h1.2.1.symm, h1.2.2.symm, h2.symm, ?_⟩
  split at h
  · next hc => exact Or.inl hc
  · right
    rw [h1.2.2]
    unfold Within
    simpa only [decide_eq_true_eq] using h

omit [FloorRing K] [OutwardRoot K] in
/-- A lookup returns a valid slot of the pool, and keeps the pool's slots. -/
theorem lookup_spec (slots : List (Slot K)) (R : Positions K) (n : ℕ) (box : Box K)
    (opt : Options K) :
    (∀ s, (lookup slots R n box opt).1 = some s → s ∈ slots ∧ s.list.valid R n box opt = true) ∧
      ∀ s ∈ (lookup slots R n box opt).2, s ∈ slots := by
  unfold lookup
  cases hf : slots.find? fun s => s.list.valid R n box opt with
  | none => exact ⟨fun s hs => by simp at hs, fun s hs => hs⟩
  | some x =>
    have hx := List.mem_of_find?_eq_some hf
    have hv := List.find?_some hf
    refine ⟨fun s hs => ?_, fun s hs => ?_⟩
    · cases hs
      exact ⟨hx, hv⟩
    · rcases List.mem_cons.mp hs with rfl | hs
      · exact hx
      · exact List.mem_of_mem_eraseP hs

omit [Field K] [LinearOrder K] [FloorRing K] [OutwardRoot K] in
theorem store_subset {slots : List (Slot K)} {fresh : Slot K} {hit : Option (Slot K)} {s : Slot K}
    (h : s ∈ store slots fresh hit) : s = fresh ∨ s ∈ slots := by
  have hkept : ∀ kept : List (Slot K), (∀ s ∈ kept, s ∈ slots) → s ∈ fresh :: kept →
      s = fresh ∨ s ∈ slots := by
    intro kept hk hs
    rcases List.mem_cons.mp hs with rfl | hs
    · exact Or.inl rfl
    · exact Or.inr (hk s hs)
  unfold store at h
  cases hit with
  | none =>
    apply hkept slots fun s hs => hs
    simp only at h
    split at h
    · exact List.mem_of_mem_dropLast h
    · exact h
  | some x =>
    apply hkept (slots.eraseP fun s => s.id = x.id) fun s hs => List.mem_of_mem_eraseP hs
    simp only at h
    split at h
    · exact List.mem_of_mem_dropLast h
    · exact h

section Stored
variable {R : Positions K} {n : ℕ} {box : Box K} {opt : Options K} [IsStrictOrderedRing K]

/-- A phantom valid for a call grows into a capture for the call's box. -/
theorem captured_of_hit {s : Slot K} {fresh : CachedPairList K} (hs : FromBuild s.list)
    (hp : s.list.phantom = true) (hv : s.list.valid R n box opt = true)
    (h : rebuild R n box opt = .ok fresh) : FromBuild fresh := by
  cases hs with
  | phantom _ hmic =>
    obtain ⟨hn, ho, hb, -⟩ := valid_facts hv
    rw [hn, hb, ho] at hmic
    exact .captured R n box opt hmic h
  | captured R₀ n₀ box₀ opt₀ hmic h₀ =>
    obtain ⟨l, hl, -, hphantom, -⟩ := rebuild_eq R₀ n₀
      (not_general_of_orthorhombic (orthorhombic_of_isMic hmic))
    rw [hl] at h₀
    cases h₀
    rw [hphantom] at hp
    cases hp

omit [IsStrictOrderedRing K] in
theorem buildForEval_stamped {fresh : CachedPairList K} (h : buildForEval R n box opt = .ok fresh) :
    Stamped fresh R n box opt := by
  unfold buildForEval at h
  simp only [bind, Except.bind, pure, Except.pure] at h
  split at h
  · cases h
  next s hs =>
  split at h
  · cases h
  · rw [← Except.ok.inj h]
    exact finishRebuild_stamped (setup_mic hs)

/-- What `accumulate` stores comes from a build of its own box. -/
theorem accumulateWith_stored {hit : Option (Slot K)} {law : PairLaw K σ} {F : ℕ → Vec3 K} {obs : σ}
    {s : Sums K σ} {fresh : CachedPairList K}
    (hhit : ∀ x, hit = some x → FromBuild x.list ∧ x.list.valid R n box opt = true)
    (h : accumulateWith hit R n box opt law F obs = .ok (s, some fresh)) : FromBuild fresh := by
  unfold accumulateWith at h
  cases hit with
  | some x =>
    obtain ⟨hx, hv⟩ := hhit x rfl
    simp only [bind, Except.bind, pure, Except.pure] at h
    split at h
    · split at h <;> simp at h
    · next hp =>
      cases hr : rebuild R n box opt with
      | error e => simp [hr] at h
      | ok l =>
        simp only [hr] at h
        split at h
        · cases h
        · cases h
          exact captured_of_hit hx (by simpa using hp) hv hr
  | none =>
    simp only [bind, Except.bind, pure, Except.pure] at h
    cases hb : buildForEval R n box opt with
    | error e => simp [hb] at h
    | ok l =>
      simp only [hb] at h
      split at h
      · cases h
      · simp only [Except.ok.injEq, Prod.mk.injEq] at h
        obtain ⟨-, h⟩ := h
        split at h
        · next hmic =>
          cases h
          have hst := buildForEval_stamped hb
          refine .phantom rfl ?_
          change isMic l.n l.boxref l.opt = true
          rw [hst.n_eq, hst.boxref_eq, hst.opt_eq, ← hst.mic_eq, hmic]
        · cases h

omit [IsStrictOrderedRing K] in
theorem visitOnly_stored {vs : List (Visit K)} {fresh : CachedPairList K}
    (h : visitOnly R n box opt = .ok (vs, some fresh)) : FromBuild fresh := by
  unfold visitOnly at h
  simp only [bind, Except.bind, pure, Except.pure] at h
  split at h
  · cases h
  next s hs =>
  split at h
  · cases h
  simp only [Except.ok.injEq, Prod.mk.injEq] at h
  obtain ⟨-, h⟩ := h
  split at h
  · next hmic =>
    have hsmic := setup_mic hs
    have hst : Stamped (finishRebuild s [] R n box opt true false) R n box opt :=
      finishRebuild_stamped hsmic
    cases h
    refine .phantom rfl ?_
    change isMic (finishRebuild s [] R n box opt true false).n
      (finishRebuild s [] R n box opt true false).boxref
      (finishRebuild s [] R n box opt true false).opt = true
    rw [hst.n_eq, hst.boxref_eq, hst.opt_eq, ← hsmic, hmic]
  · cases h

/-- What `evaluate` stores comes from a build of its own box. -/
theorem evaluateWith_stored {hit : Option (Slot K)} {vs : List (Visit K)}
    {fresh : CachedPairList K}
    (hhit : ∀ x, hit = some x → FromBuild x.list ∧ x.list.valid R n box opt = true)
    (h : evaluateWith hit R n box opt = .ok (vs, some fresh)) : FromBuild fresh := by
  unfold evaluateWith at h
  cases hit with
  | some x =>
    obtain ⟨hx, hv⟩ := hhit x rfl
    simp only [bind, Except.bind, pure, Except.pure] at h
    split at h
    · split at h <;> simp at h
    · next hp =>
      cases hr : rebuildFused R n box opt with
      | error e => simp [hr] at h
      | ok l =>
        simp only [hr, Except.ok.injEq, Prod.mk.injEq, Option.some.injEq] at h
        have hl : rebuild R n box opt = .ok fresh := by
          rw [rebuild, hr, ← h.2]
          rfl
        exact captured_of_hit hx (by simpa using hp) hv hl
  | none => exact visitOnly_stored h

omit [IsStrictOrderedRing K] in
/-- One call keeps the pool sound. -/
theorem sound_call {α : Type} {st : PoolState K} (h : st.Sound)
    {run : Option (Slot K) → Except Exn (α × Option (CachedPairList K))}
    (hrun : ∀ hit, (∀ x, hit = some x → FromBuild x.list ∧ x.list.valid R n box opt = true) →
      ∀ a fresh, run hit = .ok (a, some fresh) → FromBuild fresh) :
    (st.call R n box opt run).Sound := by
  obtain ⟨hhit, hkeep⟩ := lookup_spec st.slots R n box opt
  constructor
  · exact fun s hs => h.slots s (hkeep s hs)
  · intro p hp
    rcases List.mem_append.mp hp with hp | hp
    · exact h.pending p hp
    · have hfrom : ∀ x, (lookup st.slots R n box opt).1 = some x →
          FromBuild x.list ∧ x.list.valid R n box opt = true :=
        fun x hx => ⟨h.slots x (hhit x hx).1, (hhit x hx).2⟩
      unfold owed at hp
      split at hp
      · next a fresh hr =>
        rw [List.mem_singleton.mp hp]
        exact hrun _ hfrom a fresh hr
      · cases hp

theorem sound_step {st st' : PoolState K} (hs : Step st st') (h : st.Sound) : st'.Sound := by
  cases hs with
  | accumulate R n box opt law F obs =>
    exact sound_call h fun hit hhit s fresh hr => accumulateWith_stored hhit hr
  | evaluate R n box opt =>
    exact sound_call h fun hit hhit vs fresh hr => evaluateWith_stored hhit hr
  | store slots before after fresh hit nextId =>
    constructor
    · intro s hs
      rcases store_subset hs with rfl | hs
      · exact h.pending (fresh, hit) (by simp)
      · exact h.slots s hs
    · intro p hp
      apply h.pending p
      simp only [List.mem_append, List.mem_cons] at hp ⊢
      tauto

/-- Every slot and every owed store of a reachable pool comes from a build. -/
theorem sound_reachable {st : PoolState K} (h : Reachable st) : st.Sound := by
  induction h with
  | refl => exact ⟨fun s hs => (by cases hs), fun p hp => (by cases hp)⟩
  | tail _ hs ih => exact sound_step hs ih

end Stored
end Rgpot.Nlist
