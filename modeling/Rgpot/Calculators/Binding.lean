import Rgpot.Calculators.Group

/-! What a bind promises: refusals stay, and an accepted split was accepted by every callback. -/
namespace Rgpot.Calculators
namespace Process

variable {Hook Adopter : Type} {s : Process Hook Adopter} {w : World} {mpi : MpiSide} {c : ℤ}

@[simp] theorem comm_refuse : s.refuse.comm = s.comm := rfl

@[simp] theorem refuse_refuse : s.refuse.refuse = s.refuse := rfl

theorem adoptCalculatorComm_of_none (hc : s.comm = none) (a : Adopter) (answer : ℤ) :
    s.adoptCalculatorComm a answer = (-1, s) := by
  simp only [comm, Option.bind_eq_none_iff] at hc
  unfold adoptCalculatorComm
  cases hapi : s.api with
  | none => rfl
  | some mpi => simp [hc mpi hapi]

theorem adoptCalculatorComm_of_some (hapi : s.api = some mpi) (hc : mpi.adopted = some c)
    (a : Adopter) (answer : ℤ) : s.adoptCalculatorComm a answer =
      (answer, { s with adoptions := s.adoptions ++ [⟨a, c, mpi.group.ranks, answer⟩] }) := by
  simp [adoptCalculatorComm, hapi, hc]

/-- All hooks are asked, and the split stands if none of them refuses. -/
theorem askHook_foldl (rpc : ℤ) (hook : Hook → ℤ) (hooks : List Hook) :
    hooks.foldl (askHook rpc hook) s =
      { s with
        hookCalls := s.hookCalls ++ hooks.map fun h => ⟨h, rpc, hook h⟩
        group := { s.group with
          index := if ∀ h ∈ hooks, 0 ≤ hook h then s.group.index else -1 } } := by
  induction hooks generalizing s with
  | nil => simp
  | cons h hooks ih =>
    rw [List.foldl_cons, ih]
    by_cases hh : hook h < 0
    · simp [askHook, hh, refuse, Int.not_le.mpr hh]
    · simp [askHook, hh, Int.not_lt.mp hh]

/-- Without a communicator no adopter is called, which counts as a refusal. -/
theorem askAdopter_foldl_of_none (hc : s.comm = none) (expected : ℤ) (adopter : Adopter → ℤ)
    (adopters : List Adopter) : adopters.foldl (askAdopter expected adopter) s =
      if adopters = [] then s else s.refuse := by
  have hask : ∀ (t : Process Hook Adopter) a, t.comm = none →
      askAdopter expected adopter t a = t.refuse := by
    intro t a ht
    simp [askAdopter, adoptCalculatorComm_of_none ht]
  induction adopters generalizing s with
  | nil => rfl
  | cons a adopters ih =>
    rw [List.foldl_cons, hask s a hc, ih (s := s.refuse) hc]
    simp

/-- Every adopter is called with the communicator, also after a refusal. -/
theorem askAdopter_foldl_of_some (hapi : s.api = some mpi) (hc : mpi.adopted = some c)
    (expected : ℤ) (adopter : Adopter → ℤ) (adopters : List Adopter) :
    adopters.foldl (askAdopter expected adopter) s =
      { s with
        adoptions := s.adoptions ++ adopters.map fun a => ⟨a, c, mpi.group.ranks, adopter a⟩
        group := { s.group with
          index := if ∀ a ∈ adopters, 0 ≤ adopter a ∧ adopter a = expected
            then s.group.index else -1 } } := by
  induction adopters generalizing s with
  | nil => simp
  | cons a adopters ih =>
    have hask : askAdopter expected adopter s a =
        { s with
          adoptions := s.adoptions ++ [⟨a, c, mpi.group.ranks, adopter a⟩]
          group := { s.group with
            index := if 0 ≤ adopter a ∧ adopter a = expected then s.group.index else -1 } } := by
      simp only [askAdopter, adoptCalculatorComm_of_some hapi hc]
      by_cases ha : 0 ≤ adopter a ∧ adopter a = expected
      · rw [if_neg (show ¬ (adopter a < 0 ∨ adopter a ≠ expected) by omega), if_pos ha]
      · rw [if_pos (show adopter a < 0 ∨ adopter a ≠ expected by omega), if_neg ha]
        rfl
    rw [List.foldl_cons, hask, ih (by exact hapi)]
    simp only [List.forall_mem_cons, List.map_cons, List.append_assoc, List.singleton_append]
    by_cases ha : 0 ≤ adopter a ∧ adopter a = expected
    · simp only [if_pos ha, and_iff_right ha]
    · simp only [if_neg ha, ite_self, if_neg (fun h => ha (And.left h))]

theorem loadCalculatorMpi_eq (ok : Bool) :
    s.loadCalculatorMpi ok = { s with api := (s.loadCalculatorMpi ok).api } := by
  unfold loadCalculatorMpi
  cases s.api with
  | some mpi => rfl
  | none => cases ok <;> rfl

section Load
variable (ok : Bool)

@[simp] theorem loadCalculatorMpi_hooks : (s.loadCalculatorMpi ok).hooks = s.hooks := by
  rw [loadCalculatorMpi_eq]

@[simp] theorem loadCalculatorMpi_adopters : (s.loadCalculatorMpi ok).adopters = s.adopters := by
  rw [loadCalculatorMpi_eq]

@[simp] theorem loadCalculatorMpi_group : (s.loadCalculatorMpi ok).group = s.group := by
  rw [loadCalculatorMpi_eq]

@[simp] theorem loadCalculatorMpi_bound : (s.loadCalculatorMpi ok).bound = s.bound := by
  rw [loadCalculatorMpi_eq]

@[simp] theorem loadCalculatorMpi_hookCalls : (s.loadCalculatorMpi ok).hookCalls = s.hookCalls := by
  rw [loadCalculatorMpi_eq]

@[simp] theorem loadCalculatorMpi_adoptions : (s.loadCalculatorMpi ok).adoptions = s.adoptions := by
  rw [loadCalculatorMpi_eq]

/-- A side loaded after the bind has no communicator to give. -/
theorem loadCalculatorMpi_adopted (h : (s.loadCalculatorMpi ok).api = some mpi)
    (hc : mpi.adopted = some c) : s.api = some mpi := by
  unfold loadCalculatorMpi at h
  cases hapi : s.api with
  | some m => simpa [hapi] using h
  | none =>
    cases ok with
    | false => simp [hapi] at h
    | true =>
      obtain rfl : ({} : MpiSide) = mpi := by simpa [hapi] using h
      cases hc

end Load

/-- The MPI side is there and has a communicator for this division of the world. -/
def MadeSplit (w : World) (ranks_per_calculator : ℤ) (loads split : Bool)
    (s : Process Hook Adopter) : Prop :=
  (s.loadCalculatorMpi loads).api ≠ none ∧ split = true ∧ w.Divides ranks_per_calculator

end Process

section Split
variable {w : World} {r : ℤ} {split : Bool} {m : MpiSide}

theorem ranksPerCalculator_pos (w : World) (r : ℤ) : 0 < ranksPerCalculator w.size r := by
  have := w.rank_lt
  unfold ranksPerCalculator
  split <;> omega

theorem World.index_nonneg (w : World) (r : ℤ) :
    0 ≤ (w.rank : ℤ) / ranksPerCalculator w.size r :=
  Int.ediv_nonneg (Int.natCast_nonneg _) (ranksPerCalculator_pos w r).le

theorem MpiSide.bind_of_divides (h : w.Divides r) : m.bind w split r =
    { group := { index := w.rank / ranksPerCalculator w.size r
                 ranks := ranksPerCalculator w.size r
                 rank_in_group := w.rank % ranksPerCalculator w.size r
                 world_size := w.size }
      bound := true
      comm := if split then some (w.rank / ranksPerCalculator w.size r) else none } := by
  obtain ⟨hle, hmod⟩ := h
  exact if_neg (by omega)

theorem MpiSide.bind_of_not_divides (h : ¬ w.Divides r) : m.bind w split r =
    { m with group := { index := -1, ranks := 1, rank_in_group := 0, world_size := w.size }
             bound := true } := by
  apply if_pos
  by_contra hdivides
  exact h ⟨by omega, by omega⟩

/-- A side that splits the world gives the communicator of the calculator's index. -/
theorem MpiSide.bind_adopted (h : w.Divides r) :
    (m.bind w true r).adopted = some (w.rank / ranksPerCalculator w.size r) := by
  rw [MpiSide.bind_of_divides h]
  simp [MpiSide.adopted, Int.not_lt.mpr (w.index_nonneg r)]

theorem MpiSide.bind_adopted_none (h : ¬ (split = true ∧ w.Divides r)) :
    (m.bind w split r).adopted = none := by
  by_cases hdivides : w.Divides r
  · have hsplit : split = false := by
      by_contra hs
      exact h ⟨by simpa using hs, hdivides⟩
    rw [MpiSide.bind_of_divides hdivides]
    simp [MpiSide.adopted, hsplit]
  · rw [MpiSide.bind_of_not_divides hdivides]
    simp [MpiSide.adopted]

theorem MpiSide.bind_index_ge : -1 ≤ (m.bind w split r).group.index := by
  by_cases hdivides : w.Divides r
  · rw [MpiSide.bind_of_divides hdivides]
    have := w.index_nonneg r
    simp only
    omega
  · rw [MpiSide.bind_of_not_divides hdivides]

end Split

namespace Process

variable {Hook Adopter : Type} {s t : Process Hook Adopter} {w : World} {r : ℤ}
  {loads split : Bool} {hook : Hook → ℤ} {adopter : Adopter → ℤ} {c : ℤ} {mpi : MpiSide}

/-- Bound, and refused. -/
def Refused (s : Process Hook Adopter) : Prop := s.bound = true ∧ s.group.index = -1

/-- What the first bind does: the registrations stay, every hook is asked, and the adopters are asked
if there is a communicator. The index is that of the split or a refusal. -/
structure Binds (w : World) (r : ℤ) (loads split : Bool) (hook : Hook → ℤ) (adopter : Adopter → ℤ)
    (s t : Process Hook Adopter) : Prop where
  hooks_eq : t.hooks = s.hooks
  adopters : t.adopters = s.adopters
  bound : t.bound = true
  index_ge : -1 ≤ t.group.index
  hooks : t.group.index ≠ -1 → ∀ h ∈ s.hooks, 0 ≤ hook h
  hookCalls : ∃ rpc, t.hookCalls = s.hookCalls ++ s.hooks.map fun h => ⟨h, rpc, hook h⟩
  asked : MadeSplit w r loads split s → t.group.ranks = ranksPerCalculator w.size r ∧
    t.adoptions = s.adoptions ++ s.adopters.map (fun a =>
      ⟨a, w.rank / ranksPerCalculator w.size r, ranksPerCalculator w.size r, adopter a⟩) ∧
    (t.group.index ≠ -1 → t.group.index = w.rank / ranksPerCalculator w.size r ∧
      ∀ a ∈ s.adopters, adopter a = t.group.index)
  unasked : ¬ MadeSplit w r loads split s →
    t.adoptions = s.adoptions ∧ (t.group.index ≠ -1 → s.adopters = [])
  comm : ∀ mpi c, t.api = some mpi → mpi.adopted = some c → t.group.index ≠ -1 →
    c = t.group.index ∧ mpi.group.ranks = t.group.ranks

theorem splitWorld_eq (s : Process Hook Adopter) (w : World) (r : ℤ) (split : Bool) :
    (s.splitWorld w r split).2 =
    { s with api := (s.splitWorld w r split).2.api, group := (s.splitWorld w r split).2.group } := by
  unfold splitWorld
  cases s.api <;> rfl

theorem splitWorld_index_ge (s : Process Hook Adopter) (w : World) (r : ℤ) (split : Bool) :
    -1 ≤ (s.splitWorld w r split).2.group.index := by
  unfold splitWorld
  cases s.api with
  | some mpi => exact MpiSide.bind_index_ge
  | none => by_cases hr : (if r ≤ 0 then 1 else r) ≠ 1 <;> simp [hr]

/-- The side and the process agree on the group they are in. -/
theorem splitWorld_group (h : (s.splitWorld w r split).2.api = some mpi) :
    mpi.group = (s.splitWorld w r split).2.group := by
  unfold splitWorld at h ⊢
  cases hapi : s.api with
  | some m =>
    rw [hapi] at h
    cases h
    rfl
  | none => simp [hapi] at h

theorem splitWorld_of_madeSplit (h : MadeSplit w r loads split s) : ∃ mpi,
    ((s.loadCalculatorMpi loads).splitWorld w r split).2.api = some mpi ∧
      mpi.adopted = some (w.rank / ranksPerCalculator w.size r) ∧
      mpi.group.index = w.rank / ranksPerCalculator w.size r ∧
      mpi.group.ranks = ranksPerCalculator w.size r := by
  obtain ⟨hapi, rfl, hdivides⟩ := h
  obtain ⟨m, hm⟩ := Option.ne_none_iff_exists'.mp hapi
  refine ⟨m.bind w true r, ?_, MpiSide.bind_adopted hdivides, ?_, ?_⟩
  · simp only [splitWorld, hm]
  · rw [MpiSide.bind_of_divides hdivides]
  · rw [MpiSide.bind_of_divides hdivides]

theorem splitWorld_comm_none (h : ¬ MadeSplit w r loads split s) :
    ((s.loadCalculatorMpi loads).splitWorld w r split).2.comm = none := by
  cases hapi : (s.loadCalculatorMpi loads).api with
  | none => simp [comm, splitWorld, hapi]
  | some m =>
    have hsplit : ¬ (split = true ∧ w.Divides r) := by
      rintro ⟨hsplit, hdivides⟩
      exact h ⟨by simp [hapi], hsplit, hdivides⟩
    simpa [comm, splitWorld, hapi] using MpiSide.bind_adopted_none hsplit

theorem bindCalculators_of_bound (h : s.bound = true) :
    (s.bindCalculators w r loads split hook adopter).2 = s.loadCalculatorMpi loads := by
  unfold bindCalculators
  by_cases hr : (s.loadCalculatorMpi loads).bound_rpc = r <;> simp [h, hr]

/-- All callbacks of a bind, given the split. -/
def askCallbacks (rpc : ℤ) (hook : Hook → ℤ) (adopter : Adopter → ℤ) (s : Process Hook Adopter) :
    Process Hook Adopter :=
  let u := s.hooks.foldl (askHook rpc hook) s
  u.adopters.foldl (askAdopter s.group.index adopter) u

theorem askCallbacks_of_some (rpc : ℤ) (hapi : s.api = some mpi) (hc : mpi.adopted = some c) :
    s.askCallbacks rpc hook adopter =
      { s with
        hookCalls := s.hookCalls ++ s.hooks.map fun h => ⟨h, rpc, hook h⟩
        adoptions := s.adoptions ++ s.adopters.map fun a => ⟨a, c, mpi.group.ranks, adopter a⟩
        group := { s.group with
          index := if ∀ a ∈ s.adopters, 0 ≤ adopter a ∧ adopter a = s.group.index
            then if ∀ h ∈ s.hooks, 0 ≤ hook h then s.group.index else -1 else -1 } } := by
  rw [askCallbacks, askHook_foldl, askAdopter_foldl_of_some (by exact hapi) hc]

theorem askCallbacks_of_none (rpc : ℤ) (hc : s.comm = none) :
    s.askCallbacks rpc hook adopter =
      { s with
        hookCalls := s.hookCalls ++ s.hooks.map fun h => ⟨h, rpc, hook h⟩
        group := { s.group with
          index := if s.adopters = []
            then if ∀ h ∈ s.hooks, 0 ≤ hook h then s.group.index else -1 else -1 } } := by
  rw [askCallbacks, askHook_foldl, askAdopter_foldl_of_none (by exact hc)]
  by_cases ha : s.adopters = []
  · simp only [if_pos ha]
  · simp only [if_neg ha]
    rfl

theorem bindCalculators_of_unbound (h : s.bound = false) (w : World) (r : ℤ) (loads split : Bool)
    (hook : Hook → ℤ) (adopter : Adopter → ℤ) :
    ∃ rpc, (s.bindCalculators w r loads split hook adopter).2 =
      { ((s.loadCalculatorMpi loads).splitWorld w r split).2.askCallbacks rpc hook adopter with
        bound := true, bound_rpc := rpc } := by
  refine ⟨((s.loadCalculatorMpi loads).splitWorld w r split).1, ?_⟩
  simp [bindCalculators, h, askCallbacks]

/-- An index that two conditions let stand. -/
theorem index_of_ne {P Q : Prop} [Decidable P] [Decidable Q] {i : ℤ}
    (h : (if P then if Q then i else -1 else -1) ≠ -1) :
    P ∧ Q ∧ (if P then if Q then i else -1 else -1) = i := by
  by_cases hP : P
  · by_cases hQ : Q
    · exact ⟨hP, hQ, by rw [if_pos hP, if_pos hQ]⟩
    · simp [hQ] at h
  · simp [hP] at h

theorem index_ge_of_ge {P Q : Prop} [Decidable P] [Decidable Q] {i : ℤ} (h : -1 ≤ i) :
    -1 ≤ if P then if Q then i else -1 else -1 := by
  split_ifs <;> omega

/-- What a process keeps until its callbacks are asked. -/
theorem splitWorld_frame (s : Process Hook Adopter) (w : World) (r : ℤ) (loads split : Bool) :
    let u := ((s.loadCalculatorMpi loads).splitWorld w r split).2
    u.hooks = s.hooks ∧ u.adopters = s.adopters ∧ u.hookCalls = s.hookCalls ∧
      u.adoptions = s.adoptions := by
  intro u
  have hframe := splitWorld_eq (s.loadCalculatorMpi loads) w r split
  refine ⟨?_, ?_, ?_, ?_⟩
  · exact (congrArg Process.hooks hframe).trans (loadCalculatorMpi_hooks loads)
  · exact (congrArg Process.adopters hframe).trans (loadCalculatorMpi_adopters loads)
  · exact (congrArg Process.hookCalls hframe).trans (loadCalculatorMpi_hookCalls loads)
  · exact (congrArg Process.adoptions hframe).trans (loadCalculatorMpi_adoptions loads)

theorem bindCalculators_binds (h : s.bound = false) (w : World) (r : ℤ) (loads split : Bool)
    (hook : Hook → ℤ) (adopter : Adopter → ℤ) :
    Binds w r loads split hook adopter s (s.bindCalculators w r loads split hook adopter).2 := by
  obtain ⟨rpc, hbind⟩ := bindCalculators_of_unbound h w r loads split hook adopter
  obtain ⟨hhooks, hadopters, hhookCalls, hadoptions⟩ := splitWorld_frame s w r loads split
  have hge := splitWorld_index_ge (s.loadCalculatorMpi loads) w r split
  rw [hbind]
  by_cases hmade : MadeSplit w r loads split s
  · obtain ⟨mpi, hapi, hc, hindex, hranks⟩ := splitWorld_of_madeSplit hmade
    have hgroup := splitWorld_group hapi
    rw [hgroup] at hindex
    rw [askCallbacks_of_some rpc hapi hc, hhooks, hadopters, hhookCalls, hadoptions]
    refine ⟨rfl, rfl, rfl, index_ge_of_ge hge, fun hi => (index_of_ne hi).2.1, ⟨rpc, rfl⟩,
      fun _ => ⟨?_, ?_, fun hi => ⟨(index_of_ne hi).2.2.trans hindex, ?_⟩⟩,
      fun hnot => absurd hmade hnot, ?_⟩
    · rw [← hranks, hgroup]
    · rw [hranks]
    · intro a ha
      exact ((index_of_ne hi).1 a ha).2.trans (index_of_ne hi).2.2.symm
    · intro m d hm hd hi
      obtain rfl : mpi = m := by simpa [hapi] using hm
      obtain rfl := Option.some.inj (hc.symm.trans hd)
      exact ⟨hindex.symm.trans (index_of_ne hi).2.2.symm, by simp only [hgroup]⟩
  · have hc := splitWorld_comm_none hmade
    rw [askCallbacks_of_none rpc hc, hhooks, hadopters, hhookCalls]
    refine ⟨rfl, rfl, rfl, index_ge_of_ge hge, fun hi => (index_of_ne hi).2.1, ⟨rpc, rfl⟩,
      fun hyes => absurd hyes hmade, fun _ => ⟨hadoptions, fun hi => (index_of_ne hi).1⟩, ?_⟩
    intro m d hm hd
    have hnone : m.adopted = none := by simpa [comm] using Option.bind_eq_none_iff.mp hc m hm
    simp [hnone] at hd

end Process

end Rgpot.Calculators
