import Rgpot.Calculators.Binding

/-! A second bind: what the first one stored decides whether its group is handed back. -/
namespace Rgpot.Calculators
namespace Process

variable {Hook Adopter : Type} {s t : Process Hook Adopter} {w : World} {r : ℤ}
  {loads split : Bool} {hook : Hook → ℤ} {adopter : Adopter → ℤ}

/-- The processes a bind divides: the world, or without the MPI side this process alone. -/
def worldSize (w : World) (s : Process Hook Adopter) : ℤ :=
  if s.api = none then 1 else w.size

/-- Somebody refuses the bind: a hook, or an adopter that does not get the split's communicator or
does not answer with its index. -/
def Opposed (w : World) (r : ℤ) (loads split : Bool) (hook : Hook → ℤ) (adopter : Adopter → ℤ)
    (s : Process Hook Adopter) : Prop :=
  (∃ h ∈ s.hooks, hook h < 0) ∨ ∃ a ∈ s.adopters,
    ¬ MadeSplit w r loads split s ∨ adopter a ≠ w.rank / ranksPerCalculator w.size r

theorem divides_of_nonpos (w : World) (hr : r ≤ 0) : w.Divides r := by
  simp [World.Divides, ranksPerCalculator, hr]

/-- A call that leaves the ranks open is stored as the size of its world. -/
theorem splitWorld_fst (s : Process Hook Adopter) (w : World) (r : ℤ) (split : Bool) :
    (s.splitWorld w r split).1 = ranksPerCalculator (s.worldSize w) r := by
  unfold splitWorld
  cases hapi : s.api with
  | none => simp [worldSize, hapi, ranksPerCalculator]
  | some mpi =>
    have hsize : (mpi.bind w split r).group.world_size = w.size := by
      by_cases h : w.Divides r
      · rw [MpiSide.bind_of_divides h]
      · rw [MpiSide.bind_of_not_divides h]
    simp [worldSize, hapi, ranksPerCalculator, hsize]

theorem bindCalculators_bound_rpc (h : s.bound = false) :
    (s.bindCalculators w r loads split hook adopter).2.bound_rpc =
      ranksPerCalculator ((s.loadCalculatorMpi loads).worldSize w) r := by
  rw [← splitWorld_fst _ w r split]
  simp [bindCalculators, h]

/-- A call of a bound process compares the argument with what was stored. -/
theorem bindCalculators_bound (h : t.bound = true) :
    t.bindCalculators w r loads split hook adopter =
      (if t.bound_rpc = r then t.group else { index := -1 }, t.loadCalculatorMpi loads) := by
  have hrpc : (t.loadCalculatorMpi loads).bound_rpc = t.bound_rpc := by rw [loadCalculatorMpi_eq]
  by_cases hr : t.bound_rpc = r
  · simp [bindCalculators, h, hrpc, hr]
  · simp [bindCalculators, h, hrpc, hr]

theorem loadCalculatorMpi_eq_self_iff (ok : Bool) :
    s.loadCalculatorMpi ok = s ↔ s.api ≠ none ∨ ok = false := by
  unfold loadCalculatorMpi
  cases hapi : s.api with
  | some mpi => simp
  | none =>
    cases ok with
    | false => simp
    | true =>
      have hne : ({ s with api := some {} } : Process Hook Adopter) ≠ s := by
        intro h
        have := congrArg Process.api h
        simp [hapi] at this
      simpa using hne

/-- Binding makes or drops no MPI side beyond the one it loads. -/
theorem bindCalculators_api (h : s.bound = false) :
    (s.bindCalculators w r loads split hook adopter).2.api = none ↔
      (s.loadCalculatorMpi loads).api = none := by
  obtain ⟨rpc, hbind⟩ := bindCalculators_of_unbound h w r loads split hook adopter
  rw [hbind]
  by_cases hmade : MadeSplit w r loads split s
  · obtain ⟨mpi, hapi, hc, -, -⟩ := splitWorld_of_madeSplit hmade
    rw [askCallbacks_of_some rpc hapi hc]
    simp [hapi, hmade.1]
  · rw [askCallbacks_of_none rpc (splitWorld_comm_none hmade)]
    cases hapi : (s.loadCalculatorMpi loads).api <;> simp [splitWorld, hapi]

/-- The index that the callbacks leave of one calculator for the whole world. -/
theorem bindCalculators_index (h : s.bound = false) (hr : r ≤ 0) :
    (s.bindCalculators w r loads split hook adopter).2.group.index = -1 ↔
      Opposed w r loads split hook adopter s := by
  obtain ⟨rpc, hbind⟩ := bindCalculators_of_unbound h w r loads split hook adopter
  obtain ⟨hhooks, hadopters, -, -⟩ := splitWorld_frame s w r loads split
  have hrank := w.rank_lt
  rw [hbind]
  by_cases hmade : MadeSplit w r loads split s
  · obtain ⟨mpi, hapi, hc, hindex, -⟩ := splitWorld_of_madeSplit hmade
    have hnonneg := w.index_nonneg r
    rw [splitWorld_group hapi] at hindex
    rw [askCallbacks_of_some rpc hapi hc, hhooks, hadopters, hindex]
    simp only [Opposed, hmade, not_true_eq_false, false_or]
    constructor
    · intro hi
      by_contra hno
      push Not at hno
      obtain ⟨hh, ha⟩ := hno
      rw [if_pos fun a haA => ⟨(ha a haA).symm ▸ hnonneg, ha a haA⟩, if_pos hh] at hi
      omega
    · intro hno
      rcases hno with ⟨x, hx, hneg⟩ | ⟨a, ha, hne⟩
      · have hall : ¬ ∀ y ∈ s.hooks, 0 ≤ hook y := fun hall => Int.not_le.mpr hneg (hall x hx)
        rw [if_neg hall, ite_self]
      · rw [if_neg fun hall => hne (hall a ha).2]
  · have hc := splitWorld_comm_none hmade
    have hindex : ((s.loadCalculatorMpi loads).splitWorld w r split).2.group.index = 0 := by
      cases hapi : (s.loadCalculatorMpi loads).api with
      | none => simp [splitWorld, hapi, hr]
      | some mpi =>
        simp only [splitWorld, hapi, MpiSide.bind_of_divides (divides_of_nonpos w hr),
          ranksPerCalculator, if_pos hr]
        exact Int.ediv_eq_zero_of_lt (by omega) (by omega)
    rw [askCallbacks_of_none rpc hc, hhooks, hadopters, hindex]
    simp only [Opposed, hmade, not_false_eq_true, true_or, and_true]
    constructor
    · intro hi
      by_contra hno
      push Not at hno
      obtain ⟨hh, ha⟩ := hno
      rw [if_pos (List.eq_nil_iff_forall_not_mem.mpr ha), if_pos hh] at hi
      omega
    · intro hno
      rcases hno with ⟨x, hx, hneg⟩ | ⟨a, ha⟩
      · have hall : ¬ ∀ y ∈ s.hooks, 0 ≤ hook y := fun hall => Int.not_le.mpr hneg (hall x hx)
        rw [if_neg hall, ite_self]
      · rw [if_neg (List.ne_nil_of_mem ha)]

/-- One calculator for the whole world, refused or not. -/
theorem bindCalculators_group (h : s.bound = false) (hr : r ≤ 0) :
    let t := (s.bindCalculators w r loads split hook adopter).2
    t.group = { index := t.group.index
                ranks := (s.loadCalculatorMpi loads).worldSize w
                rank_in_group := w.rank % (s.loadCalculatorMpi loads).worldSize w
                world_size := (s.loadCalculatorMpi loads).worldSize w } := by
  intro t
  obtain ⟨rpc, hbind⟩ := bindCalculators_of_unbound h w r loads split hook adopter
  have hkept : t.group = { ((s.loadCalculatorMpi loads).splitWorld w r split).2.group with
      index := t.group.index } := by
    simp only [t, hbind]
    by_cases hmade : MadeSplit w r loads split s
    · obtain ⟨mpi, hapi, hc, -, -⟩ := splitWorld_of_madeSplit hmade
      rw [askCallbacks_of_some rpc hapi hc]
    · rw [askCallbacks_of_none rpc (splitWorld_comm_none hmade)]
  rw [hkept]
  cases hapi : (s.loadCalculatorMpi loads).api with
  | none => simp [splitWorld, hapi, hr, worldSize]
  | some mpi =>
    simp [splitWorld, hapi, MpiSide.bind_of_divides (divides_of_nonpos w hr), worldSize,
      ranksPerCalculator, hr]

/-- A bound group that reads as a refusal: a process that is a world of its own, refused. -/
theorem bindCalculators_refusal (h : s.bound = false) (hr : r ≤ 0) :
    (s.bindCalculators w r loads split hook adopter).2.group = { index := -1 } ↔
      (s.loadCalculatorMpi loads).worldSize w = 1 ∧ Opposed w r loads split hook adopter s := by
  rw [← bindCalculators_index h hr]
  have hgroup : (s.bindCalculators w r loads split hook adopter).2.group = _ :=
    bindCalculators_group h hr
  constructor
  · intro hrefusal
    refine ⟨?_, by rw [hrefusal]⟩
    have hsize := congrArg CalculatorGroup.world_size (hgroup.symm.trans hrefusal)
    simpa using hsize
  · rintro ⟨hsize, hindex⟩
    rw [hgroup, hsize, hindex]
    simp

theorem ranksPerCalculator_worldSize_pos (w : World) (s : Process Hook Adopter) (r : ℤ) :
    0 < ranksPerCalculator (s.worldSize w) r := by
  have := w.rank_lt
  unfold ranksPerCalculator worldSize
  split_ifs <;> omega

/-- A second bind with the argument of the first hands the bound group back and changes nothing, and a
bind that asks for other ranks per calculator is refused, exactly when the argument names the ranks and
no MPI side has appeared since; an open argument gets the refusal that a process alone with an opposed
bind holds anyway. -/
theorem bindCalculators_again (w : World) (r : ℤ) (loads split : Bool) (hook : Hook → ℤ)
    (adopter : Adopter → ℤ) (s : Process Hook Adopter) (hs : s.bound = false)
    (loads' split' : Bool) (hook' : Hook → ℤ) (adopter' : Adopter → ℤ) :
    let t := (s.bindCalculators w r loads split hook adopter).2
    (t.bindCalculators w r loads' split' hook' adopter' = (t.group, t) ∧
      ∀ r', ranksPerCalculator ((s.loadCalculatorMpi loads).worldSize w) r' ≠
          ranksPerCalculator ((s.loadCalculatorMpi loads).worldSize w) r →
        (t.bindCalculators w r' loads' split' hook' adopter').1 = { index := -1 } ∧
          (t.bindCalculators w r' loads' split' hook' adopter').2.group = t.group) ↔
    (0 < r ∨ (s.loadCalculatorMpi loads).worldSize w = 1 ∧
        Opposed w r loads split hook adopter s) ∧
      ((s.loadCalculatorMpi loads).api ≠ none ∨ loads' = false) := by
  intro t
  have hbound : t.bound = true := (bindCalculators_binds hs w r loads split hook adopter).bound
  have hstored : t.bound_rpc = ranksPerCalculator ((s.loadCalculatorMpi loads).worldSize w) r :=
    bindCalculators_bound_rpc hs
  have hsame : t.loadCalculatorMpi loads' = t ↔
      (s.loadCalculatorMpi loads).api ≠ none ∨ loads' = false := by
    rw [loadCalculatorMpi_eq_self_iff, ne_eq, bindCalculators_api hs]
  have hother : ∀ r', ranksPerCalculator ((s.loadCalculatorMpi loads).worldSize w) r' ≠
      ranksPerCalculator ((s.loadCalculatorMpi loads).worldSize w) r →
      (t.bindCalculators w r' loads' split' hook' adopter').1 = { index := -1 } ∧
        (t.bindCalculators w r' loads' split' hook' adopter').2.group = t.group := by
    intro r' hne
    have hr' : ¬ t.bound_rpc = r' := by
      intro heq
      have hpos := ranksPerCalculator_worldSize_pos w (s.loadCalculatorMpi loads) r
      apply hne
      rw [← hstored, heq]
      exact if_neg (by omega)
    rw [bindCalculators_bound hbound, if_neg hr']
    exact ⟨rfl, loadCalculatorMpi_group loads'⟩
  have hback : (if t.bound_rpc = r then t.group else { index := -1 }) = t.group ↔
      0 < r ∨ (s.loadCalculatorMpi loads).worldSize w = 1 ∧
        Opposed w r loads split hook adopter s := by
    by_cases hr : r ≤ 0
    · have hne : ¬ t.bound_rpc = r := by
        have hpos := ranksPerCalculator_worldSize_pos w (s.loadCalculatorMpi loads) r
        omega
      rw [if_neg hne, eq_comm, bindCalculators_refusal hs hr]
      simp [Int.not_lt.mpr hr]
    · have heq : t.bound_rpc = r := hstored.trans (if_neg hr)
      rw [if_pos heq]
      simp [Int.not_le.mp hr]
  rw [bindCalculators_bound hbound, Prod.mk.injEq, hback, hsame]
  exact ⟨fun h => h.1, fun h => ⟨h, hother⟩⟩

/-- The ranks named, with the MPI side loaded. -/
theorem bindCalculators_again_two_ranks :
    let s : Process Unit Unit := {}
    let w : World := ⟨4, 1, by decide⟩
    let t := (s.bindCalculators w 2 true true (fun _ => 0) fun _ => 0).2
    (t.bindCalculators w 2 true true (fun _ => 0) fun _ => 0) = (t.group, t) :=
  ((bindCalculators_again ⟨4, 1, by decide⟩ 2 true true (fun _ => 0) (fun _ => 0)
    ({} : Process Unit Unit) rfl true true (fun _ => 0) fun _ => 0).mpr
      ⟨Or.inl (by decide), Or.inl (by decide)⟩).1

/-- One calculator of all four ranks, asked for twice in the same way. -/
theorem not_bindCalculators_again :
    ¬ ∀ (w : World) (r : ℤ) (loads split : Bool) (hook adopter : Unit → ℤ) (s : Process Unit Unit),
      s.bound = false →
      let t := (s.bindCalculators w r loads split hook adopter).2
      t.bindCalculators w r loads split hook adopter = (t.group, t) := by
  intro h
  have hback := congrArg (fun x => x.1.index)
    (h ⟨4, 1, by decide⟩ 0 true true (fun _ => 0) (fun _ => 0) {} rfl)
  exact absurd hback (by decide)

end Process
end Rgpot.Calculators
