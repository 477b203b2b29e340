import Rgpot.Uma.Band

/-! The engine's C entry points: what a failed call leaves in the host's buffers. -/
namespace Rgpot.Uma
open Fill Fallible

variable {D : Type} [Reals D]

/-- The host's result buffers; `variances` may be null. -/
structure Host (D : Type) where
  forces : ℕ → D
  energies : ℕ → D
  variances : Option (ℕ → D)

/-- A host's coordinate transform, by the number of the call: a return code and what it leaves in the
scratch copies. -/
structure Transform (D : Type) where
  call : ℕ → List (Row D) → (Fin 9 → D) → ℤ × List (Row D) × (Fin 9 → D)
  length_call : ∀ i R cell, (call i R cell).2.1.length = R.length

/-- What the host passes in: whether all pointers are there, the counts, positions, atomic numbers and
cells. -/
structure Request (D : Type) where
  pointers : Bool
  nSystems : ℤ
  nAtoms : ℤ
  positions : ℕ → Row D
  atomicNrs : ℕ → ℤ
  boxes : ℕ → Fin 9 → D
  transform : Option (Transform D)

namespace Request

/-- Scratch copies of system `i`. -/
def scratch (q : Request D) (i : ℕ) : ForceInput D where
  nAtoms := q.nAtoms.toNat
  pos := (List.range q.nAtoms.toNat).map fun a => q.positions (i * q.nAtoms.toNat + a)
  atmnrs := (List.range q.nAtoms.toNat).map q.atomicNrs
  box := q.boxes i
  length_pos := by rw [List.length_map, List.length_range]
  length_atmnrs := by rw [List.length_map, List.length_range]

/-- The transform on one system; a nonzero code ends the call. -/
def transformed (q : Request D) (i : ℕ) : Except ℤ (ForceInput D) :=
  match q.transform with
  | none => .ok (q.scratch i)
  | some t =>
    let answer := t.call i (q.scratch i).pos (q.scratch i).box
    if answer.1 ≠ 0 then .error answer.1
    else .ok { q.scratch i with
      pos := answer.2.1
      box := answer.2.2
      length_pos := (t.length_call _ _ _).trans (q.scratch i).length_pos }

end Request

/-- `rgpot_engine_force`. -/
def engineForce (env : Env D) (q : Request D) (host : Host D) : ℤ × Host D :=
  if ¬ q.pointers ∨ q.nAtoms ≤ 0 then (1, host)
  else match q.transformed 0 with
  | .error rc => (rc, host)
  | .ok input =>
    match forceImpl env 2 input 0 ⟨fun _ => ⟨fun _ => 0, 0, 0⟩, []⟩ with
    | some (s, .ok ()) => (0, {
        forces := fill host.forces 0 (q.nAtoms.toNat * 3) (s.out 0).F
        energies := Function.update host.energies 0 (s.out 0).energy
        variances := host.variances.map fun v => Function.update v 0 (s.out 0).variance })
    | _ => (2, host)

/-- The slices of the host's force buffer as result slots. -/
def Host.slots (host : Host D) (stride : ℕ) : Outs D :=
  ⟨fun i => ⟨fun k => host.forces (i * stride + k), 0, 0⟩, []⟩

/-- The host's force buffer after the slots were written. -/
def Host.forcesAfter (host : Host D) (stride count : ℕ) (s : Outs D) (p : ℕ) : D :=
  if p < count * stride then (s.out (p / stride)).F (p % stride) else host.forces p

/-- `rgpot_engine_force_batch`. -/
def engineForceBatch (env : Env D) (q : Request D) (host : Host D) : ℤ × Host D :=
  if ¬ q.pointers ∨ q.nSystems ≤ 0 ∨ q.nAtoms ≤ 0 then (1, host)
  else match (List.range q.nSystems.toNat).mapM q.transformed with
  | .error rc => (rc, host)
  | .ok inputs =>
    let stride := q.nAtoms.toNat * 3
    match forceBatchImpl env 2 inputs 0 (host.slots stride) with
    | some (s, .ok ()) => (0, {
        forces := host.forcesAfter stride q.nSystems.toNat s
        energies := fill host.energies 0 q.nSystems.toNat fun i => (s.out i).energy
        variances := host.variances.map fun v => fill v 0 q.nSystems.toNat fun i => (s.out i).variance })
    | some (s, .error _) => (2, { host with forces := host.forcesAfter stride q.nSystems.toNat s })
    | none => (2, host)

section Single

/-- A failed single call leaves every buffer alone. -/
theorem engineForce_unchanged (env : Env D) (q : Request D) (host : Host D)
    (h : (engineForce env q host).1 ≠ 0) : (engineForce env q host).2 = host := by
  unfold engineForce at h ⊢
  split
  · rfl
  · rename_i hargs
    rw [if_neg hargs] at h
    split
    · rfl
    · rename_i input hinput
      rw [hinput] at h
      dsimp only at h
      split
      · rename_i s hs
        rw [hs] at h
        exact absurd rfl h
      · rfl

end Single

section Stages
variable {env : Env D} {impl : Impl D} {n bmax slot : ℕ} {systems : List (ForceInput D)}

/-- The checks and the run of one system under a plain package. -/
def plainEval (env : Env D) (impl : Impl D) (input : ForceInput D) : Except Failure (D × List D) := do
  checkContract impl input
  evalSingle env impl input

theorem plainCall_eq {input : ForceInput D} (hn : input.nAtoms ≠ 0) (s : Outs D) :
    plainCall env impl input slot s =
      match plainEval env impl input with
      | .error e => (s, .error e)
      | .ok (energy, forces) =>
        (s.write slot energy (input.nAtoms * 3) fun i => forces.getD i 0, .ok ()) := by
  rw [plainCall, if_neg hn, plainEval]
  cases checkContract impl input with
  | error e => rfl
  | ok _ =>
    cases evalSingle env impl input with
    | error e => rfl
    | ok r => rfl

/-- A loop over systems ends well exactly when every system can be evaluated. -/
theorem plainLoop_ok_iff (hn : ∀ input ∈ systems, input.nAtoms ≠ 0) (s : Outs D) :
    (plainLoop env impl systems slot s).2 = .ok () ↔
      ∀ input ∈ systems, ∃ r, plainEval env impl input = .ok r := by
  induction systems generalizing slot s with
  | nil => exact iff_of_true rfl fun input h => absurd h List.not_mem_nil
  | cons input systems ih =>
    have hrest : ∀ x ∈ systems, x.nAtoms ≠ 0 := fun x hx => hn x (List.mem_cons_of_mem input hx)
    rw [plainLoop, plainCall_eq (hn input List.mem_cons_self), List.forall_mem_cons]
    cases heval : plainEval env impl input with
    | error e =>
      refine iff_of_false ?_ ?_
      · intro h
        cases h
      · rintro ⟨⟨r, hr⟩, -⟩
        cases hr
    | ok r =>
      refine (ih hrest _).trans (and_iff_right ⟨r, rfl⟩).symm

/-- Later systems leave the slots before them alone. -/
theorem plainLoop_frame {k : ℕ} (hk : k < slot) (hn : ∀ input ∈ systems, input.nAtoms ≠ 0)
    (s : Outs D) : (plainLoop env impl systems slot s).1.out k = s.out k := by
  induction systems generalizing slot s with
  | nil => rfl
  | cons input systems ih =>
    have hrest : ∀ x ∈ systems, x.nAtoms ≠ 0 := fun x hx => hn x (List.mem_cons_of_mem input hx)
    rw [plainLoop, plainCall_eq (hn input List.mem_cons_self)]
    cases plainEval env impl input with
    | error e => rfl
    | ok r =>
      refine (ih (Nat.lt_succ_of_lt hk) hrest _).trans ?_
      rw [Outs.write_out, if_neg hk.ne]

theorem plainEval_ok_iff {input : ForceInput D} : (∃ r, plainEval env impl input = .ok r) ↔
    checkContract impl input = .ok () ∧ ∃ r, evalSingle env impl input = .ok r := by
  constructor
  · rintro ⟨r, h⟩
    obtain ⟨_, hcontract, heval⟩ := bind_eq_ok.mp h
    exact ⟨hcontract, r, heval⟩
  · rintro ⟨hcontract, r, heval⟩
    exact ⟨r, bind_eq_ok.mpr ⟨(), hcontract, heval⟩⟩

/-- `P` of every chunk from `start` on. -/
def ForChunks (P : List (ForceInput D) → Prop) (systems : List (ForceInput D)) (size start : ℕ) : Prop :=
  ∀ j, start + j * size < systems.length → P (chunkAt systems size (start + j * size))

omit [Reals D] in
theorem forChunks_step {P : List (ForceInput D) → Prop} {size start : ℕ}
    (h : start < systems.length) : ForChunks P systems size start ↔
      P (chunkAt systems size start) ∧ ForChunks P systems size (start + size) :=
  chunks_step h

/-- The loop over the chunks ends well exactly when every chunk can be evaluated, and leaves the slots
before it alone. -/
theorem chunkLoop_outcome (hb : 0 < bmax) (start : ℕ) (s : Outs D) :
    ((chunkLoop env impl n bmax systems slot start s).2 = .ok () ↔
      ForChunks (fun chunk => ∃ r, evalChunk env impl n bmax chunk = .ok r) systems bmax start) ∧
    ∀ k < slot + start, (chunkLoop env impl n bmax systems slot start s).1.out k = s.out k := by
  induction hm : systems.length - start using Nat.strong_induction_on generalizing start s with
  | _ m ih =>
    rcases Nat.lt_or_ge start systems.length with hlt | hge
    · rw [chunkLoop_step hlt hb, forChunks_step hlt]
      cases heval : evalChunk env impl n bmax (chunkAt systems bmax start) with
      | error e =>
        refine ⟨iff_of_false ?_ ?_, fun k _ => rfl⟩
        · intro h
          cases h
        · rintro ⟨⟨r, hr⟩, -⟩
          cases hr
      | ok r =>
        obtain ⟨hiff, hframe⟩ := ih (systems.length - (start + bmax)) (by omega) (start + bmax)
          (writeChunk n (slot + start) (chunkAt systems bmax start).length r.1 r.2 s) rfl
        refine ⟨hiff.trans (and_iff_right ⟨r, rfl⟩).symm, ?_⟩
        intro k hk
        refine (hframe k (by omega)).trans ?_
        rw [(writeChunk_eq _ _ _ _ _ s).2, if_neg (by omega)]
    · rw [chunkLoop_done hge]
      refine ⟨iff_of_true rfl ?_, fun k _ => rfl⟩
      intro j hj
      omega

end Stages

section Batch
variable {env : Env D} {impl : Impl D} {n : ℕ} {zs : List ℤ} {systems : List (ForceInput D)}

/-- How many systems a package evaluates at once. -/
def chunkSize (impl : Impl D) : ℕ := max 1 impl.batch_max.toNat

omit [Reals D] in
theorem chunkSize_pos (impl : Impl D) : 0 < chunkSize impl := lt_of_lt_of_le Nat.one_pos (le_max_left _ _)

/-- A chunk that goes through: the package takes its systems, and vesin and the graph succeed on it. -/
def Evaluates (env : Env D) (impl : Impl D) (n : ℕ) (chunk : List (ForceInput D)) : Prop :=
  (∀ input ∈ chunk, checkContract impl input = .ok ()) ∧
  if impl.batch_max ≤ 1 then ∀ input ∈ chunk, ∃ r, evalSingle env impl input = .ok r
  else ∃ r, evalChunk env impl n impl.batch_max.toNat chunk = .ok r

theorem evaluates_plain (hmax : impl.batch_max ≤ 1) {i : ℕ} (hi : i < systems.length) :
    Evaluates env impl n (chunkAt systems (chunkSize impl) i) ↔
      ∃ r, plainEval env impl systems[i] = .ok r := by
  have hsize : chunkSize impl = 1 := by
    rw [chunkSize]
    omega
  have hchunk : chunkAt systems (chunkSize impl) i = [systems[i]] := by
    rw [hsize, chunkAt, List.drop_eq_getElem_cons hi]
    rfl
  rw [plainEval_ok_iff, hchunk, Evaluates, if_pos hmax]
  simp only [List.forall_mem_singleton]

theorem forChunks_plain (hmax : impl.batch_max ≤ 1) :
    ForChunks (Evaluates env impl n) systems (chunkSize impl) 0 ↔
      ∀ input ∈ systems, ∃ r, plainEval env impl input = .ok r := by
  have hindex : ∀ j, 0 + j * chunkSize impl = j := by
    intro j
    rw [chunkSize, max_eq_left (by omega)]
    omega
  constructor
  · intro h input hinput
    obtain ⟨i, hi, rfl⟩ := List.mem_iff_getElem.mp hinput
    have := h i (by rwa [hindex])
    rwa [hindex, evaluates_plain hmax hi] at this
  · intro h j hj
    rw [hindex] at hj ⊢
    exact (evaluates_plain hmax hj).mpr (h _ (List.getElem_mem hj))

theorem forChunks_band (hmax : 1 < impl.batch_max)
    (hcontract : ∀ input ∈ systems, checkContract impl input = .ok ()) (start : ℕ) :
    ForChunks (Evaluates env impl n) systems (chunkSize impl) start ↔
      ForChunks (fun chunk => ∃ r, evalChunk env impl n impl.batch_max.toNat chunk = .ok r) systems
        impl.batch_max.toNat start := by
  have hsize : chunkSize impl = impl.batch_max.toNat := by
    rw [chunkSize]
    omega
  rw [hsize]
  refine forall_congr' fun j => imp_congr_right fun _ => ?_
  rw [Evaluates, if_neg (by omega)]
  exact and_iff_right fun input hinput =>
    hcontract input (List.mem_of_mem_drop (List.mem_of_mem_take hinput))

/-- A run whose first stage fails leaves the slots as they were; any other writes the first force, and
fails exactly when a later stage does. -/
def FailsAlone (first all : Prop) (run : Outs D → Ended D) : Prop :=
  (¬ first ∧ ∀ s, ∃ e, run s = (s, .error e)) ∨
  (first ∧ ∃ x : D, ∀ s, ((run s).1.out 0).F 0 = x ∧ ((run s).2 = .ok () ↔ all))

theorem plainLoop_failsAlone {first : ForceInput D} {rest : List (ForceInput D)}
    (hn : ∀ input ∈ first :: rest, 0 < input.nAtoms) :
    FailsAlone (∃ r, plainEval env impl first = .ok r)
      (∀ input ∈ first :: rest, ∃ r, plainEval env impl input = .ok r)
      (plainLoop env impl (first :: rest) 0) := by
  have hatoms : ∀ input ∈ first :: rest, input.nAtoms ≠ 0 := fun input hinput => (hn input hinput).ne'
  have hfirst := hn first List.mem_cons_self
  cases heval : plainEval env impl first with
  | error e =>
    left
    refine ⟨?_, ?_⟩
    · rintro ⟨r, hr⟩
      cases hr
    · intro s
      refine ⟨e, ?_⟩
      rw [plainLoop, plainCall_eq hfirst.ne', heval]
  | ok r =>
    right
    refine ⟨⟨r, rfl⟩, r.2.getD 0 0, ?_⟩
    intro s
    refine ⟨?_, plainLoop_ok_iff hatoms s⟩
    have hframe : ∀ s', (plainLoop env impl rest (0 + 1) s').1.out 0 = s'.out 0 := fun s' =>
      plainLoop_frame Nat.one_pos (fun x hx => hatoms x (List.mem_cons_of_mem first hx)) s'
    rw [plainLoop, plainCall_eq hfirst.ne', heval]
    simp only [hframe, Outs.write_out, if_pos, fill_apply]
    rw [if_pos (by omega)]

theorem chunkLoop_failsAlone {bmax : ℕ} (hb : 0 < bmax) (hn : 0 < n) (hne : systems ≠ []) :
    FailsAlone (∃ r, evalChunk env impl n bmax (chunkAt systems bmax 0) = .ok r)
      (ForChunks (fun chunk => ∃ r, evalChunk env impl n bmax chunk = .ok r) systems bmax 0)
      (chunkLoop env impl n bmax systems 0 0) := by
  have hlt : 0 < systems.length := List.length_pos_iff.mpr hne
  cases heval : evalChunk env impl n bmax (chunkAt systems bmax 0) with
  | error e =>
    left
    refine ⟨?_, ?_⟩
    · rintro ⟨r, hr⟩
      cases hr
    · intro s
      refine ⟨e, ?_⟩
      rw [chunkLoop_step hlt hb, heval]
  | ok r =>
    right
    refine ⟨⟨r, rfl⟩, r.2.getD 0 0, ?_⟩
    intro s
    refine ⟨?_, (chunkLoop_outcome hb 0 s).1⟩
    have hlength := length_chunkAt systems bmax 0
    have hframe : ∀ s', (chunkLoop env impl n bmax systems 0 (0 + bmax) s').1.out 0 = s'.out 0 :=
      fun s' => (chunkLoop_outcome hb (0 + bmax) s').2 0 (by omega)
    rw [chunkLoop_step hlt hb, heval]
    simp only [hframe]
    rw [(writeChunk_eq _ _ _ _ _ s).2, if_pos (by omega)]
    simp only [ForceOut.filled, fill_apply]
    rw [if_pos (by omega)]
    simp

theorem bandCall_failsAlone {first : ForceInput D} {rest : List (ForceInput D)}
    (hmax : 1 < impl.batch_max) (hn : 0 < n) (hu : Uniform n zs (first :: rest)) :
    FailsAlone (Evaluates env impl n (chunkAt (first :: rest) (chunkSize impl) 0))
      (ForChunks (Evaluates env impl n) (first :: rest) (chunkSize impl) 0)
      (bandCall env impl first (first :: rest) 0) := by
  obtain ⟨hnatoms, hzs⟩ := hu first List.mem_cons_self
  have huniform : uniform first (first :: rest) = true := by
    rw [uniform_iff, hnatoms, hzs]
    exact hu
  cases hcontract : checkContract impl first with
  | error e =>
    left
    refine ⟨?_, ?_⟩
    · rintro ⟨hall, -⟩
      have hmem : first ∈ chunkAt (first :: rest) (chunkSize impl) 0 := by
        apply List.mem_of_getElem? (i := 0)
        rw [chunkAt_getElem? _ _ (chunkSize_pos impl)]
        rfl
      rw [hall first hmem] at hcontract
      cases hcontract
    · intro s
      refine ⟨e, ?_⟩
      rw [bandCall, if_neg (not_not.mpr huniform), hcontract]
  | ok _ =>
    have hall : ∀ input ∈ first :: rest, checkContract impl input = .ok () := by
      intro input hinput
      rw [checkContract_congr ((hu input hinput).2.trans hzs.symm), hcontract]
    have hfirst : Evaluates env impl n (chunkAt (first :: rest) (chunkSize impl) 0) ↔
        ∃ r, evalChunk env impl n impl.batch_max.toNat
          (chunkAt (first :: rest) impl.batch_max.toNat 0) = .ok r := by
      rw [Evaluates, if_neg (by omega), chunkSize, max_eq_right (by omega)]
      exact and_iff_right fun input hinput =>
        hall input (List.mem_of_mem_drop (List.mem_of_mem_take hinput))
    have hrun : bandCall env impl first (first :: rest) 0 =
        chunkLoop env impl n impl.batch_max.toNat (first :: rest) 0 0 := by
      funext s
      rw [bandCall, if_neg (not_not.mpr huniform), hcontract, hnatoms]
    rw [hfirst, forChunks_band hmax hall, hrun]
    exact chunkLoop_failsAlone (by omega) hn (List.cons_ne_nil first rest)

theorem batchResult_failsAlone (hload : env.load = .ok impl) (hn : 0 < n) (hne : systems ≠ [])
    (hu : Uniform n zs systems) :
    FailsAlone (Evaluates env impl n (chunkAt systems (chunkSize impl) 0))
      (ForChunks (Evaluates env impl n) systems (chunkSize impl) 0) (batchResult env systems 0) := by
  obtain ⟨first, rest, rfl⟩ := List.exists_cons_of_ne_nil hne
  rcases le_or_gt impl.batch_max 1 with hmax | hmax
  · have hrun : batchResult env (first :: rest) 0 = plainLoop env impl (first :: rest) 0 := by
      funext s
      simp only [batchResult, hload, if_pos hmax]
    rw [evaluates_plain hmax (Nat.succ_pos _), forChunks_plain hmax, hrun]
    refine plainLoop_failsAlone ?_
    intro input hinput
    rwa [(hu input hinput).1]
  · have hrun : batchResult env (first :: rest) 0 = bandCall env impl first (first :: rest) 0 := by
      funext s
      simp only [batchResult, hload, if_neg (not_le.mpr hmax)]
    rw [hrun]
    exact bandCall_failsAlone hmax hn hu

end Batch

section Abi
variable {env : Env D} {q : Request D}

omit [Reals D] in
theorem transformed_atoms {i : ℕ} {input : ForceInput D} (h : q.transformed i = .ok input) :
    input.nAtoms = q.nAtoms.toNat ∧
      input.atmnrs = (List.range q.nAtoms.toNat).map q.atomicNrs := by
  unfold Request.transformed at h
  split at h
  · cases h
    exact ⟨rfl, rfl⟩
  · dsimp only at h
    split at h
    · cases h
    · cases h
      exact ⟨rfl, rfl⟩

omit [Reals D] in
/-- All systems of a request have its atoms. -/
theorem transformed_uniform {count : ℕ} {inputs : List (ForceInput D)}
    (h : (List.range count).mapM q.transformed = .ok inputs) :
    inputs.length = count ∧
      Uniform q.nAtoms.toNat ((List.range q.nAtoms.toNat).map q.atomicNrs) inputs := by
  refine ⟨?_, ?_⟩
  · rw [← (mapM_eq_ok_iff.mp h).length_eq, List.length_range]
  · intro input hinput
    obtain ⟨i, -, hi⟩ := mapM_mem h hinput
    exact transformed_atoms hi

theorem forcesAfter_slots (host : Host D) (stride count : ℕ) :
    host.forcesAfter stride count (host.slots stride) = host.forces := by
  funext p
  unfold Host.forcesAfter
  split
  · exact congrArg host.forces (Nat.div_add_mod' p stride)
  · rfl

/-- A batch whose first chunk can be evaluated fails at no later one. -/
def FailsAtFirst (env : Env D) (q : Request D) : Prop :=
  ∀ inputs impl, q.pointers = true → 0 < q.nSystems → 0 < q.nAtoms →
    (List.range q.nSystems.toNat).mapM q.transformed = .ok inputs → env.load = .ok impl →
    Evaluates env impl q.nAtoms.toNat (chunkAt inputs (chunkSize impl) 0) →
    ForChunks (Evaluates env impl q.nAtoms.toNat) inputs (chunkSize impl) 0

theorem engineForceBatch_refused (host : Host D)
    (h : ¬ (q.pointers = true ∧ 0 < q.nSystems ∧ 0 < q.nAtoms)) :
    engineForceBatch env q host = (1, host) := by
  unfold engineForceBatch
  rw [if_pos]
  by_contra hargs
  push Not at hargs
  exact h hargs

theorem engineForceBatch_transform (host : Host D) {rc : ℤ}
    (hargs : q.pointers = true ∧ 0 < q.nSystems ∧ 0 < q.nAtoms)
    (h : (List.range q.nSystems.toNat).mapM q.transformed = .error rc) :
    engineForceBatch env q host = (rc, host) := by
  obtain ⟨hp, hs, ha⟩ := hargs
  unfold engineForceBatch
  rw [if_neg (by simp [hp, hs, ha]), h]

/-- The codes and the forces of a batch that is run. -/
theorem engineForceBatch_run (host : Host D) {inputs : List (ForceInput D)}
    (hargs : q.pointers = true ∧ 0 < q.nSystems ∧ 0 < q.nAtoms)
    (h : (List.range q.nSystems.toNat).mapM q.transformed = .ok inputs) :
    ((engineForceBatch env q host).1 = 0 ↔
      (batchResult env inputs 0 (host.slots (q.nAtoms.toNat * 3))).2 = .ok ()) ∧
    ((engineForceBatch env q host).1 ≠ 0 → (engineForceBatch env q host).2 =
      { host with
        forces := host.forcesAfter (q.nAtoms.toNat * 3) q.nSystems.toNat
          (batchResult env inputs 0 (host.slots (q.nAtoms.toNat * 3))).1 }) := by
  obtain ⟨hp, hs, ha⟩ := hargs
  unfold engineForceBatch
  rw [if_neg (by simp [hp, hs, ha]), h]
  simp only [forceBatchImpl_eq 0]
  cases hrun : batchResult env inputs 0 (host.slots (q.nAtoms.toNat * 3)) with
  | mk s ended =>
    cases ended with
    | error e =>
      refine ⟨iff_of_false ?_ ?_, fun _ => rfl⟩
      · exact (by decide : ¬ (2 : ℤ) = 0)
      · intro hok
        cases hok
    | ok _ => exact ⟨iff_of_true rfl rfl, fun hcode => absurd rfl hcode⟩

theorem engineForceBatch_unchanged_iff [Nontrivial D] (env : Env D) (q : Request D) :
    (∀ host, (engineForceBatch env q host).1 ≠ 0 → (engineForceBatch env q host).2 = host) ↔
      FailsAtFirst env q := by
  by_cases hargs : q.pointers = true ∧ 0 < q.nSystems ∧ 0 < q.nAtoms
  swap
  · refine iff_of_true ?_ ?_
    · intro host _
      rw [engineForceBatch_refused host hargs]
    · intro inputs impl hp hs ha
      exact absurd ⟨hp, hs, ha⟩ hargs
  cases hinputs : (List.range q.nSystems.toNat).mapM q.transformed with
  | error rc =>
    refine iff_of_true ?_ ?_
    · intro host _
      rw [engineForceBatch_transform host hargs hinputs]
    · intro inputs impl _ _ _ hok
      rw [hinputs] at hok
      cases hok
  | ok inputs =>
    have hrun := fun host => @engineForceBatch_run _ _ env q host _ hargs hinputs
    obtain ⟨hp, hs, ha⟩ := hargs
    obtain ⟨hlength, hu⟩ := transformed_uniform hinputs
    have hne : inputs ≠ [] := by
      rw [← List.length_pos_iff]
      omega
    have hn : 0 < q.nAtoms.toNat := by omega
    have hstride : 0 < q.nAtoms.toNat * 3 := by omega
    cases hload : env.load with
    | error e =>
      obtain ⟨first, rest, rfl⟩ := List.exists_cons_of_ne_nil hne
      have hsame : ∀ s, batchResult env (first :: rest) 0 s = (s, .error e) := by
        intro s
        simp only [batchResult, hload]
      refine iff_of_true ?_ ?_
      · intro host hcode
        rw [(hrun host).2 hcode, hsame, forcesAfter_slots]
      · intro inputs' impl _ _ _ _ hok
        rw [hload] at hok
        cases hok
    | ok impl =>
      have hcondition : FailsAtFirst env q ↔
          (Evaluates env impl q.nAtoms.toNat (chunkAt inputs (chunkSize impl) 0) →
            ForChunks (Evaluates env impl q.nAtoms.toNat) inputs (chunkSize impl) 0) := by
        constructor
        · intro h
          exact h inputs impl hp hs ha hinputs hload
        · intro h inputs' impl' _ _ _ hok hload'
          rw [hinputs] at hok
          rw [hload] at hload'
          obtain rfl := Except.ok.inj hok
          obtain rfl := Except.ok.inj hload'
          exact h
      rw [hcondition]
      obtain ⟨hfirst, hfails⟩ | ⟨hfirst, x, hwrites⟩ := batchResult_failsAlone hload hn hne hu
      · -- the first chunk fails before anything is written
        refine iff_of_true ?_ fun h => absurd h hfirst
        intro host hcode
        obtain ⟨e, he⟩ := hfails (host.slots (q.nAtoms.toNat * 3))
        rw [(hrun host).2 hcode, he, forcesAfter_slots]
      · constructor
        · -- a host whose first force is another number
          intro h _
          obtain ⟨y, hy⟩ := exists_ne x
          let host : Host D := ⟨fun _ => y, fun _ => y, none⟩
          obtain ⟨hforce, hok⟩ := hwrites (host.slots (q.nAtoms.toNat * 3))
          rw [← hok, ← (hrun host).1]
          by_contra hcode
          have hunchanged := h host hcode
          rw [(hrun host).2 hcode] at hunchanged
          have hzero := congrFun (congrArg Host.forces hunchanged) 0
          have hslots : 0 < q.nSystems.toNat * (q.nAtoms.toNat * 3) :=
            Nat.mul_pos (by omega) hstride
          simp only [Host.forcesAfter, if_pos hslots, Nat.zero_div, Nat.zero_mod, hforce] at hzero
          exact hy hzero.symm
        · intro h host hcode
          have hok := (hwrites (host.slots (q.nAtoms.toNat * 3))).2.mpr (h hfirst)
          exact absurd ((hrun host).1.mpr hok) hcode

/-- A failed single call leaves the host's buffers alone. Failed batches do exactly when they fail
before the first chunk has been evaluated. -/
theorem engine_unchanged_iff [Nontrivial D] (env : Env D) (q : Request D) :
    (∀ host, (engineForce env q host).1 ≠ 0 → (engineForce env q host).2 = host) ∧
    ((∀ host, (engineForceBatch env q host).1 ≠ 0 → (engineForceBatch env q host).2 = host) ↔
      FailsAtFirst env q) :=
  ⟨engineForce_unchanged env q, engineForceBatch_unchanged_iff env q⟩

end Abi

section Samples

/-- Vesin refuses cells without a volume. -/
def cellEnv : Env ℚ :=
  { sampleEnv with
    vesin := fun input _ =>
      if input.box 0 = 0 then .error (some "cell has no volume") else .ok (samplePairs input.nAtoms input.pos) }

/-- Three dimers, one of them without a cell. -/
def sampleRequest (flat : ℕ) : Request ℚ where
  pointers := true
  nSystems := 3
  nAtoms := 2
  positions p d := if d = 0 then ((p % 2 : ℕ) : ℚ) else 0
  atomicNrs _ := 1
  boxes i k := if i = flat then 0 else if (k : ℕ) % 4 = 0 then 20 else 0
  transform := none

theorem sample_inputs (flat : ℕ) : (List.range 3).mapM (sampleRequest flat).transformed =
    .ok ((List.range 3).map (sampleRequest flat).scratch) :=
  mapM_eq_ok fun _ _ => rfl

/-- The dimers with a cell have their edges. -/
theorem cell_runs {flat i : ℕ} (hi : i ≠ flat) :
    ∃ s, systemOf cellEnv sampleImpl ((sampleRequest flat).scratch i) = .ok s ∧ s.edges.count = 2 := by
  obtain ⟨e, he, hcount⟩ := dimer_count cellEnv.sorts
  have hbox : (sampleRequest flat).boxes i 0 = 20 := by simp [sampleRequest, hi]
  have hpairs : samplePairs 2 ((sampleRequest flat).scratch i).pos = dimer := by
    refine if_pos ?_
    have hnext : (i * 2 + 1) % 2 = 1 := by omega
    have hfirst : (i * 2) % 2 = 0 := by omega
    simp [sampleRequest, hnext, hfirst]
  have hvesin : cellEnv.vesin ((sampleRequest flat).scratch i) sampleImpl.cutoff = .ok dimer := by
    refine (if_neg ?_).trans (congrArg Except.ok hpairs)
    change ¬ (sampleRequest flat).boxes i 0 = 0
    rw [hbox]
    norm_num
  exact ⟨_, systemOf_plain (by decide) (hvesin ▸ he), hcount⟩

/-- The one without is refused. -/
theorem flat_refused (flat : ℕ) (s : System ℚ) :
    systemOf cellEnv sampleImpl ((sampleRequest flat).scratch flat) ≠ .ok s := by
  intro h
  obtain ⟨moved, hlocal, hrest⟩ := bind_eq_ok.mp h
  obtain rfl := Except.ok.inj ((localInput_plain (by decide) _).symm.trans hlocal)
  have hvesin : cellEnv.vesin ((sampleRequest flat).scratch flat) sampleImpl.cutoff =
      .error (some "cell has no volume") := by
    refine if_pos ?_
    change (sampleRequest flat).boxes flat 0 = 0
    simp [sampleRequest]
  rw [hvesin] at hrest
  cases hrest

/-- A single call for it fails. -/
theorem engineForce_flat (host : Host ℚ) : (engineForce cellEnv (sampleRequest 0) host).1 ≠ 0 := by
  let input := (sampleRequest 0).scratch 0
  let s : Outs ℚ := ⟨fun _ => ⟨fun _ => 0, 0, 0⟩, []⟩
  have hu : Uniform 2 [1, 1] [input] := by
    intro x hx
    obtain rfl := List.mem_singleton.mp hx
    exact ⟨rfl, rfl⟩
  have hended : (bandCall cellEnv sampleImpl input [input] 0 s).2 ≠ .ok () := by
    intro hok
    have haccepted : Accepted cellEnv sampleImpl [input] :=
      (bandCall_run (by decide) hu (sampleModel 2 2 0 1) 0 s).1.mp hok
    obtain ⟨sys, hsys⟩ := (haccepted.chunks 0 (by decide)).1 input List.mem_cons_self
    exact flat_refused 0 sys hsys
  have hcall : forceImpl cellEnv 2 input 0 s = some (bandCall cellEnv sampleImpl input [input] 0 s) :=
    (forceImpl_eq 0 input 0 s).trans rfl
  have hargs : ¬ (¬ (sampleRequest 0).pointers ∨ (sampleRequest 0).nAtoms ≤ 0) := by decide
  have htransformed : (sampleRequest 0).transformed 0 = .ok input := rfl
  rw [engineForce, if_neg hargs, htransformed]
  dsimp only
  rw [hcall]
  cases hresult : bandCall cellEnv sampleImpl input [input] 0 s with
  | mk after ended =>
    rw [hresult] at hended
    cases ended with
    | error e => exact (by decide : (2 : ℤ) ≠ 0)
    | ok _ => exact absurd rfl hended

/-- A single call whose system has no cell, and a batch whose second system has none, both fail and leave the
host's buffers alone. -/
theorem engine_unchanged_flat :
    (∀ host, (engineForce cellEnv (sampleRequest 0) host).1 ≠ 0 ∧
      (engineForce cellEnv (sampleRequest 0) host).2 = host) ∧
    ∀ host, (engineForceBatch cellEnv (sampleRequest 1) host).1 ≠ 0 ∧
      (engineForceBatch cellEnv (sampleRequest 1) host).2 = host := by
  have huniform := (transformed_uniform (sample_inputs 1)).2
  have hrefused : ¬ Evaluates cellEnv sampleImpl 2
      (chunkAt ((List.range 3).map (sampleRequest 1).scratch) 2 0) := by
    rintro ⟨-, r, hr⟩
    obtain ⟨hbuilt, -⟩ := runs_of_evalChunk (List.cons_ne_nil _ _) le_rfl (uniform_chunkAt huniform 2 0) hr
    obtain ⟨s, hs⟩ := hbuilt ((sampleRequest 1).scratch 1) (List.mem_cons_of_mem _ List.mem_cons_self)
    exact flat_refused 1 s hs
  have hbatch : FailsAtFirst cellEnv (sampleRequest 1) := by
    intro inputs impl _ _ _ hinputs hload hfirst
    obtain rfl := Except.ok.inj ((sample_inputs 1).symm.trans hinputs)
    obtain rfl := Except.ok.inj ((rfl : cellEnv.load = .ok sampleImpl).symm.trans hload)
    exact absurd hfirst hrefused
  have hcode : ∀ host, (engineForceBatch cellEnv (sampleRequest 1) host).1 ≠ 0 := by
    intro host hzero
    have hok := (engineForceBatch_run host ⟨rfl, by decide, by decide⟩ (sample_inputs 1)).1.mp hzero
    obtain ⟨-, hfails⟩ | ⟨hfirst, -⟩ := @batchResult_failsAlone _ _ cellEnv sampleImpl _ _ _ rfl
      Nat.two_pos (List.cons_ne_nil _ _) huniform
    · obtain ⟨e, he⟩ := hfails (host.slots (2 * 3))
      exact absurd ((congrArg Prod.snd he).symm.trans hok) nofun
    · exact hrefused hfirst
  have hsingle := (engine_unchanged_iff cellEnv (sampleRequest 0)).1
  have hbuffers := (engine_unchanged_iff cellEnv (sampleRequest 1)).2.mpr hbatch
  exact ⟨fun host => ⟨engineForce_flat host, hsingle host (engineForce_flat host)⟩,
    fun host => ⟨hcode host, hbuffers host (hcode host)⟩⟩

theorem not_engine_unchanged : ¬ ∀ host, (engineForceBatch cellEnv (sampleRequest 2) host).1 ≠ 0 →
    (engineForceBatch cellEnv (sampleRequest 2) host).2 = host := by
  rw [engineForceBatch_unchanged_iff]
  intro h
  have hcontract : ∀ input, checkContract sampleImpl input = .ok () := fun _ => rfl
  have huniform := (transformed_uniform (sample_inputs 2)).2
  have hfirst : Runs cellEnv sampleImpl [(sampleRequest 2).scratch 0, (sampleRequest 2).scratch 1] := by
    obtain ⟨s, hs, hcount⟩ := @cell_runs 2 0 (by decide)
    obtain ⟨t, ht, -⟩ := @cell_runs 2 1 (by decide)
    refine ⟨?_, _, List.mem_cons_self, s, hs, by omega⟩
    rw [List.forall_mem_cons, List.forall_mem_singleton]
    exact ⟨⟨s, hs⟩, t, ht⟩
  obtain ⟨energies, forces, heval, -⟩ := evalChunk_of_runs (sampleModel 2 2 0 1)
    (List.cons_ne_nil _ _) le_rfl (uniform_chunkAt huniform 2 0) hfirst
  have hlast := h _ sampleImpl rfl (by decide) (by decide) (sample_inputs 2) rfl
    ⟨fun input _ => hcontract input, (energies, forces), heval⟩ 1 (by decide)
  obtain ⟨-, r, hr⟩ := hlast
  obtain ⟨hbuilt, -⟩ := runs_of_evalChunk (List.cons_ne_nil _ _) (by decide)
    (uniform_chunkAt huniform 2 2) hr
  obtain ⟨s, hs⟩ := hbuilt ((sampleRequest 2).scratch 2) List.mem_cons_self
  exact flat_refused 2 s hs

end Samples

end Rgpot.Uma
