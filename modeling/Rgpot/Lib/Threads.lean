import Mathlib.Logic.Function.Basic
import Mathlib.Tactic.Common

/-! Threads over a shared store: a move of one thread is atomic, and any order of moves is a run. -/
namespace Rgpot.Threads

variable {ι σ τ μ : Type} [DecidableEq ι]

structure State (ι σ τ : Type) where
  shared : σ
  thread : ι → τ

variable (next : σ → τ → μ → Option (σ × τ))

/-- Thread `i` makes the move `m`; `none` when it cannot. -/
def step (s : State ι σ τ) (i : ι) (m : μ) : Option (State ι σ τ) :=
  (next s.shared (s.thread i) m).map fun r => ⟨r.1, Function.update s.thread i r.2⟩

def run (s : State ι σ τ) : List (ι × μ) → Option (State ι σ τ)
  | [] => some s
  | (i, m) :: ms => (step next s i m).bind fun t => run t ms

/-- Every move of the run meets `P`, a condition on the store and the mover before it. -/
def Along (P : σ → τ → μ → Prop) (s : State ι σ τ) : List (ι × μ) → Prop
  | [] => True
  | (i, m) :: ms => P s.shared (s.thread i) m ∧ ∀ t, step next s i m = some t → Along P t ms

variable {next} {s t u : State ι σ τ} {i j : ι} {m : μ} {ms : List (ι × μ)}
variable {P : σ → τ → μ → Prop}

theorem step_inv (h : step next s i m = some t) : ∃ c l,
    next s.shared (s.thread i) m = some (c, l) ∧ t = ⟨c, Function.update s.thread i l⟩ := by
  obtain ⟨⟨c, l⟩, hnext, rfl⟩ := Option.map_eq_some_iff.mp h
  exact ⟨c, l, hnext, rfl⟩

theorem run_cons_inv (h : run next s ((i, m) :: ms) = some u) :
    ∃ t, step next s i m = some t ∧ run next t ms = some u :=
  Option.bind_eq_some_iff.mp h

theorem along_cons (hP : P s.shared (s.thread i) m) (h : step next s i m = some t)
    (ht : Along next P t ms) : Along next P s ((i, m) :: ms) := by
  refine ⟨hP, fun u hu => ?_⟩
  obtain rfl := Option.some.inj (h.symm.trans hu)
  exact ht

/-- The store keeps `Shared`, and each thread's own state keeps `Local`: no other thread touches it. -/
theorem invariant (Shared : σ → Prop) (Local : τ → Prop)
    (hnext : ∀ c l m c' l', next c l m = some (c', l') → P c l m → Shared c → Local l →
      Shared c' ∧ Local l')
    (hs : Shared s.shared ∧ ∀ i, Local (s.thread i)) (hP : Along next P s ms)
    (h : run next s ms = some t) : Shared t.shared ∧ ∀ i, Local (t.thread i) := by
  induction ms generalizing s with
  | nil =>
    obtain rfl := Option.some.inj h
    exact hs
  | cons im ms ih =>
    obtain ⟨i, m⟩ := im
    obtain ⟨v, hstep, hrun⟩ := run_cons_inv h
    refine ih ?_ (hP.2 v hstep) hrun
    obtain ⟨c, l, hmove, rfl⟩ := step_inv hstep
    obtain ⟨hshared, hlocal⟩ := hnext _ _ _ _ _ hmove hP.1 hs.1 (hs.2 i)
    refine ⟨hshared, fun j => ?_⟩
    by_cases hj : j = i
    · subst hj
      simpa using hlocal
    · simpa [Function.update_of_ne hj] using hs.2 j

theorem along_true (s : State ι σ τ) (ms : List (ι × μ)) : Along next (fun _ _ _ => True) s ms := by
  induction ms generalizing s with
  | nil => trivial
  | cons im ms ih => exact ⟨trivial, fun t _ => ih t⟩

/-- Moves that leave the store alone leave it so over a run. -/
theorem shared_frame (hframe : ∀ c l m c' l', next c l m = some (c', l') → P c l m → c' = c)
    (hP : Along next P s ms) (h : run next s ms = some t) : t.shared = s.shared := by
  have hinv := invariant (fun c => c = s.shared) (fun _ => True)
    (fun c l m c' l' hmove hp hc _ => ⟨(hframe c l m c' l' hmove hp).trans hc, trivial⟩)
    ⟨rfl, fun _ => trivial⟩ hP h
  exact hinv.1

end Rgpot.Threads
