import Rgpot.Metatomic.Passes
import Rgpot.Engines.Reuse

/-! `MetatomicPot`: the species tensor it keeps between force calls. -/
namespace Rgpot.Metatomic
open Engines Component

variable {K : Type} [Field K]

/-- The loaded model over all systems: what it answers, and where a pass throws. -/
structure AtomisticModel (K : Type) where
  answer : (n : ℕ) → (Fin n → Int32) → Model K n
  failure : (n : ℕ) → (Fin n → Int32) → Rows K n → Rows K 3 → Option Exn

/-- `m_cached_types` and `m_cached_natoms`; no tensor before the first call with atoms. -/
structure CachedTypes where
  m_cached_types : Option ((n : ℕ) × (Fin n → Int32))
  m_cached_natoms : ℕ

def CachedTypes.fresh : CachedTypes := ⟨none, 0⟩

def rows {n : ℕ} (pos : Fin (3 * n) → K) : Rows K n := fun i k => pos ⟨3 * i + k, by omega⟩

def flat {n : ℕ} (forces : Rows K n) : Fin (3 * n) → K :=
  fun k => forces ⟨k / 3, by omega⟩ ⟨k % 3, by omega⟩

theorem cell_lt (i k : Fin 3) : 3 * (i : ℕ) + k < 9 := by omega

def cell (box : Fin 9 → K) : Rows K 3 := fun i k => box ⟨3 * i + k, cell_lt i k⟩

section ForceImpl
variable (M : AtomisticModel K) (random_so3 : ℕ → Rows K 3) (c : MetatomicConfig)

/-- What the first pass that throws does throw. -/
def passFailure (n : ℕ) (types : Fin n → Int32) (pos : Rows K n) (box : Rows K 3) : Option Exn :=
  (List.range c.n_passes).findSome? fun i_pass =>
    let R := c.rotation random_so3 i_pass
    if c.use_rotation && !c.identity_pass i_pass then
      M.failure n types (about R pos) (matmul box (transpose R))
    else M.failure n types pos box

/-- The passes over the species held; the system refuses species of another length. -/
def passes (types : Option ((n : ℕ) × (Fin n → Int32))) (call : Call K) :
    Except Failure (Engines.ForceOut K call.1.nAtoms) :=
  match types with
  | none => .error (.thrown (.runtimeError "`types` must be a 1D tensor"))
  | some ⟨n, types⟩ =>
    if h : n = call.1.nAtoms then
      let species := fun i => types (Fin.cast h.symm i)
      let pos := rows call.1.pos
      let box := cell call.1.box
      match passFailure M random_so3 c _ species pos box with
      | some e => .error (.thrown e)
      | none =>
        let acc := forceImpl random_so3 c (M.answer _ species) pos box
        .ok { call.2 with energy := acc.energy, F := call.2.F.map fun _ => flat acc.forces }
    else .error (.thrown (.runtimeError "`positions` must have as many rows as `types`"))

/-- The species are taken anew when the atom count is another. -/
def CachedTypes.prepare (s : CachedTypes) (input : Engines.ForceInput K) : CachedTypes :=
  if s.m_cached_natoms ≠ input.nAtoms then ⟨some ⟨input.nAtoms, input.atmnrs⟩, input.nAtoms⟩
  else s

/-- `MetatomicPot::forceImpl`. -/
def MetatomicPot.forceImpl (call : Call K) (s : CachedTypes) :
    Except Failure (Engines.ForceOut K call.1.nAtoms) × CachedTypes :=
  let s := s.prepare call.1
  (passes M random_so3 c s.m_cached_types call, s)

end ForceImpl

/-- The species held for an atom count are those of the input, and an input without atoms comes only
before the first with atoms. -/
structure CachedTypes.Fits (s : CachedTypes) (input : Engines.ForceInput K) : Prop where
  same : s.m_cached_natoms = input.nAtoms →
    ∀ types, s.m_cached_types = some types → types = ⟨input.nAtoms, input.atmnrs⟩
  empty : input.nAtoms = 0 → s = fresh

variable {M : AtomisticModel K} {random_so3 : ℕ → Rows K 3} {c : MetatomicConfig}

theorem passes_not_overrun {types : Option ((n : ℕ) × (Fin n → Int32))} {call : Call K} :
    passes M random_so3 c types call ≠ .error .overrun := by
  intro h
  cases types with
  | none => cases h
  | some types =>
    simp only [passes] at h
    split at h
    · split at h <;> cases h
    · cases h

omit [Field K] in
/-- On species that fit, a call that returns reads the species of its own input. -/
theorem CachedTypes.Fits.prepare {s : CachedTypes} {input : Engines.ForceInput K}
    (h : s.Fits input) :
    (s.prepare input).m_cached_types = none ∨
      (s.prepare input).m_cached_types = some ⟨input.nAtoms, input.atmnrs⟩ := by
  by_cases hn : s.m_cached_natoms = input.nAtoms
  · have hkept : s.prepare input = s := by simp [CachedTypes.prepare, hn]
    rw [hkept]
    cases htypes : s.m_cached_types with
    | none => exact .inl rfl
    | some types => exact .inr (congrArg some (h.same hn types htypes))
  · right
    simp [CachedTypes.prepare, hn]

theorem MetatomicPot.forceImpl_ends {s : CachedTypes} {call : Call K} (h : s.Fits call.1) :
    Ends Overruns (fun o _ => (forceImpl M random_so3 c call .fresh).1 = .ok o)
      (forceImpl M random_so3 c call s) := by
  constructor
  · intro e he hover
    rw [hover] at he
    exact passes_not_overrun he
  · intro o ho
    by_cases hatoms : call.1.nAtoms = 0
    · rwa [h.empty hatoms] at ho
    · have hne : CachedTypes.fresh.m_cached_natoms ≠ call.1.nAtoms := fun hz => hatoms hz.symm
      have hfresh : CachedTypes.fresh.prepare call.1 =
          ⟨some ⟨call.1.nAtoms, call.1.atmnrs⟩, call.1.nAtoms⟩ := if_pos hne
      have hcall : (forceImpl M random_so3 c call .fresh).1 =
          passes M random_so3 c (some ⟨call.1.nAtoms, call.1.atmnrs⟩) call := by
        simp only [forceImpl, hfresh]
      rw [hcall]
      have hrun : passes M random_so3 c (s.prepare call.1).m_cached_types call = .ok o := ho
      rcases h.prepare with hnone | hsome
      · rw [hnone] at hrun
        cases hrun
      · rwa [hsome] at hrun

end Rgpot.Metatomic
