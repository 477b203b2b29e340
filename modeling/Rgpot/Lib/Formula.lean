import Mathlib.Algebra.BigOperators.Ring.Finset
import Mathlib.Data.Fintype.BigOperators

/-! Formulas over named variables: values, derivatives and substitution. -/

/-- An operation, and the coefficient of each argument's derivative in the derivative of its value. -/
structure Operation (K : Type) where
  arity : ℕ
  evaluate : (Fin arity → K) → K
  slope : Fin arity → (Fin arity → K) → K

inductive Formula (K V : Type) where
  | var (x : V)
  | op (o : Operation K) (args : Fin o.arity → Formula K V)

namespace Formula
variable {K V W : Type}

def eval (v : V → K) : Formula K V → K
  | var x => v x
  | op o args => o.evaluate fun i => (args i).eval v

/-- The value of the derivative in the variable `x`. -/
def deriv [CommSemiring K] [DecidableEq V] (x : V) (v : V → K) : Formula K V → K
  | var y => if y = x then 1 else 0
  | op o args => ∑ i, o.slope i (fun j => (args j).eval v) * (args i).deriv x v

def vars : Formula K V → Set V
  | var x => {x}
  | op _ args => ⋃ i, (args i).vars

/-- Replaces every variable by a formula. -/
def bind (f : V → Formula K W) : Formula K V → Formula K W
  | var x => f x
  | op o args => op o fun i => (args i).bind f

/-- Renames every variable. -/
def rename (r : V → W) (e : Formula K V) : Formula K W := e.bind fun x => var (r x)

theorem eval_congr {v w : V → K} {e : Formula K V} (h : ∀ x ∈ e.vars, v x = w x) :
    e.eval v = e.eval w := by
  induction e with
  | var x => exact h x rfl
  | op o args ih =>
    simp only [eval]
    congr 1
    funext i
    exact ih i fun x hx => h x (Set.mem_iUnion.mpr ⟨i, hx⟩)

theorem eval_bind (f : V → Formula K W) (v : W → K) (e : Formula K V) :
    (e.bind f).eval v = e.eval fun x => (f x).eval v := by
  induction e with
  | var x => rfl
  | op o args ih => simp only [bind, eval, ih]

theorem eval_rename (r : V → W) (v : W → K) (e : Formula K V) :
    (e.rename r).eval v = e.eval fun x => v (r x) := eval_bind _ v e

theorem vars_bind (f : V → Formula K W) (e : Formula K V) :
    (e.bind f).vars = ⋃ x ∈ e.vars, (f x).vars := by
  induction e with
  | var x => simp [bind, vars]
  | op o args ih =>
    ext y
    simp only [bind, vars, ih, Set.mem_iUnion]
    constructor
    · rintro ⟨i, x, hx, hy⟩
      exact ⟨x, ⟨i, hx⟩, hy⟩
    · rintro ⟨x, ⟨i, hx⟩, hy⟩
      exact ⟨i, x, hx, hy⟩

section Derivatives
variable [CommSemiring K] [DecidableEq V] [DecidableEq W]

theorem deriv_congr {x : V} {v w : V → K} {e : Formula K V} (h : ∀ y ∈ e.vars, v y = w y) :
    e.deriv x v = e.deriv x w := by
  induction e with
  | var y => rfl
  | op o args ih =>
    have hargs : (fun j => (args j).eval v) = fun j => (args j).eval w := by
      funext j
      exact eval_congr fun y hy => h y (Set.mem_iUnion.mpr ⟨j, hy⟩)
    simp only [deriv, hargs]
    apply Finset.sum_congr rfl
    intro i _
    rw [ih i fun y hy => h y (Set.mem_iUnion.mpr ⟨i, hy⟩)]

/-- A formula does not vary with a variable it does not have. -/
theorem deriv_eq_zero {x : V} {v : V → K} {e : Formula K V} (h : x ∉ e.vars) :
    e.deriv x v = 0 := by
  induction e with
  | var y =>
    have hne : y ≠ x := fun hy => h hy.symm
    simp [deriv, hne]
  | op o args ih =>
    simp only [deriv]
    apply Finset.sum_eq_zero
    intro i _
    rw [ih i fun hx => h (Set.mem_iUnion.mpr ⟨i, hx⟩), mul_zero]

/-- The chain rule of substitution, over names that cover the variables. -/
theorem deriv_bind {ι : Type} [Fintype ι] {names : ι → V} (hnames : Function.Injective names)
    (f : V → Formula K W) (z : W) (v : W → K) {e : Formula K V} (he : e.vars ⊆ Set.range names) :
    (e.bind f).deriv z v =
      ∑ i, e.deriv (names i) (fun x => (f x).eval v) * (f (names i)).deriv z v := by
  induction e with
  | var x =>
    obtain ⟨i, hi⟩ := he (Set.mem_singleton x)
    rw [bind, Finset.sum_eq_single i]
    · simp [deriv, hi]
    · intro j _ hj
      have hne : x ≠ names j := by
        rintro rfl
        exact hj (hnames hi).symm
      simp [deriv, hne]
    · intro hmem
      exact (hmem (Finset.mem_univ i)).elim
  | op o args ih =>
    have hargs : ∀ i, (args i).vars ⊆ Set.range names :=
      fun i x hx => he (Set.mem_iUnion.mpr ⟨i, hx⟩)
    simp only [bind, deriv, eval_bind]
    calc ∑ a, o.slope a (fun j => (args j).eval fun x => (f x).eval v) *
          ((args a).bind f).deriv z v
        = ∑ a, ∑ i, o.slope a (fun j => (args j).eval fun x => (f x).eval v) *
            ((args a).deriv (names i) (fun x => (f x).eval v) * (f (names i)).deriv z v) := by
          apply Finset.sum_congr rfl
          intro a _
          rw [ih a (hargs a), Finset.mul_sum]
      _ = ∑ i, ∑ a, o.slope a (fun j => (args j).eval fun x => (f x).eval v) *
            ((args a).deriv (names i) (fun x => (f x).eval v) * (f (names i)).deriv z v) :=
          Finset.sum_comm
      _ = ∑ i, (∑ a, o.slope a (fun j => (args j).eval fun x => (f x).eval v) *
            (args a).deriv (names i) (fun x => (f x).eval v)) * (f (names i)).deriv z v := by
          apply Finset.sum_congr rfl
          intro i _
          rw [Finset.sum_mul]
          apply Finset.sum_congr rfl
          intro a _
          exact (mul_assoc _ _ _).symm

/-- Renaming injectively renames the derivatives. -/
theorem deriv_rename {r : V → W} {x : V} {v : W → K} {e : Formula K V}
    (hr : ∀ y ∈ e.vars, r y = r x → y = x) :
    (e.rename r).deriv (r x) v = e.deriv x fun y => v (r y) := by
  induction e with
  | var y =>
    by_cases hy : y = x
    · simp [rename, bind, deriv, hy]
    · have hne : r y ≠ r x := fun h => hy (hr y rfl h)
      simp [rename, bind, deriv, hy, hne]
  | op o args ih =>
    simp only [rename, bind, deriv, eval_bind, eval] at ih ⊢
    apply Finset.sum_congr rfl
    intro i _
    rw [ih i fun y hy => hr y (Set.mem_iUnion.mpr ⟨i, hy⟩)]

end Derivatives
end Formula
