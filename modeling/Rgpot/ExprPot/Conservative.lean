import Rgpot.Lib.Numerals
import Rgpot.ExprPot.Substitution
import Mathlib.Analysis.Calculus.Deriv.Prod
import Mathlib.Analysis.Calculus.Deriv.Comp
import Mathlib.Analysis.Calculus.Deriv.Inv
import Mathlib.Analysis.Calculus.Deriv.Mul
import Mathlib.Analysis.Calculus.Deriv.Add
import Mathlib.Analysis.Calculus.Deriv.Pi

/-! The forces of a tree of `ExprPot`s as the gradient of its energy. -/
namespace Rgpot.ExprPot

variable {n : ℕ}

/-- A geometry with one coordinate moved. -/
abbrev move (input : ForceInput ℝ) (k : Fin (3 * input.nAtoms)) (x : ℝ) : ForceInput ℝ :=
  { input with pos := Function.update input.pos k x }

theorem move_self (input : ForceInput ℝ) (k : Fin (3 * input.nAtoms)) :
    move input k (input.pos k) = input := by
  simp [move]

/-- The compiled derivatives are the partial derivatives of the compiled expression, wherever these
exist. -/
def Compiled.Exact (c : Compiled ℝ n) : Prop :=
  ∀ (slots : Fin n → ℝ) (i : Fin n) (d : ℝ),
    HasDerivAt (fun x => c.evaluate (Function.update slots i x)) d (slots i) →
    c.dEnergy slots i = d

namespace Pot

/-- The leaves' forces are minus the partial derivatives of their energies, and the expressions are
compiled exactly. -/
def Lawful : Pot ℝ → Prop
  | .leaf l => ∀ (input : ForceInput ℝ) (k : Fin (3 * input.nAtoms)),
    DifferentiableAt ℝ (fun x => l.energy (move input k x)) (input.pos k) →
    HasDerivAt (fun x => l.energy (move input k x)) (-l.force input k) (input.pos k)
  | .expr c terms => c.Exact ∧ ∀ i, (terms i).Lawful

/-- Every leaf energy has its partial derivatives, and so has every expression at its terms'
energies. -/
def PartialsExist : Pot ℝ → ForceInput ℝ → Prop
  | .leaf l, input => ∀ k : Fin (3 * input.nAtoms),
    DifferentiableAt ℝ (fun x => l.energy (move input k x)) (input.pos k)
  | .expr c terms, input => (∀ i, (terms i).PartialsExist input) ∧
    ∀ i, DifferentiableAt ℝ (fun x => c.evaluate
      (Function.update (fun j => (terms j).energy input) i x)) ((terms i).energy input)

/-- Every leaf energy has its partial derivatives, and every expression is differentiable in its terms
together. -/
def Smooth : Pot ℝ → ForceInput ℝ → Prop
  | .leaf l, input => ∀ k : Fin (3 * input.nAtoms),
    DifferentiableAt ℝ (fun x => l.energy (move input k x)) (input.pos k)
  | .expr c terms, input => (∀ i, (terms i).Smooth input) ∧
    DifferentiableAt ℝ c.evaluate fun j => (terms j).energy input

end Pot

/-- Where an expression is differentiable, its total derivative is the weighted sum of the terms'. -/
theorem Compiled.Exact.hasDerivAt {c : Compiled ℝ n} (hexact : c.Exact) {E : ℝ → Fin n → ℝ}
    {E' : Fin n → ℝ} {x : ℝ} (hc : DifferentiableAt ℝ c.evaluate (E x))
    (hE : ∀ i, HasDerivAt (fun y => E y i) (E' i) x) :
    HasDerivAt (fun y => c.evaluate (E y)) (∑ i, c.dEnergy (E x) i * E' i) x := by
  have hpartial : ∀ i, fderiv ℝ c.evaluate (E x) (Pi.single i 1) = c.dEnergy (E x) i := by
    intro i
    have hline : HasDerivAt (fun y => Function.update (E x) i y) (Pi.single i 1) (E x i) :=
      hasDerivAt_update (E x) i (E x i)
    have hat : DifferentiableAt ℝ c.evaluate (Function.update (E x) i (E x i)) := by
      rwa [Function.update_eq_self]
    have hcomp := hat.hasFDerivAt.comp_hasDerivAt (E x i) hline
    rw [Function.update_eq_self] at hcomp
    exact (hexact (E x) i _ hcomp).symm
  have htotal := hc.hasFDerivAt.comp_hasDerivAt x (hasDerivAt_pi.mpr hE)
  refine htotal.congr_deriv ?_
  calc fderiv ℝ c.evaluate (E x) E'
      = fderiv ℝ c.evaluate (E x) (∑ i, E' i • Pi.single i 1) := by
        congr 1
        funext j
        simp [Finset.sum_apply, Pi.single_apply]
    _ = ∑ i, c.dEnergy (E x) i * E' i := by
        rw [map_sum]
        apply Finset.sum_congr rfl
        intro i _
        rw [map_smul, hpartial, smul_eq_mul, mul_comm]

/-- The chain rule over a whole tree, one composite at a time. -/
theorem Pot.hasDerivAt_energy {p : Pot ℝ} (hp : p.Lawful) {input : ForceInput ℝ}
    (hsmooth : p.Smooth input) (k : Fin (3 * input.nAtoms)) :
    HasDerivAt (fun x => p.energy (move input k x)) (-p.force input k) (input.pos k) := by
  induction p with
  | leaf l => exact hp input k (hsmooth k)
  | expr c terms ih =>
    obtain ⟨hexact, hterms⟩ := hp
    obtain ⟨hchildren, hc⟩ := hsmooth
    have hE : ∀ i, HasDerivAt (fun x => (terms i).energy (move input k x))
        (-(terms i).force input k) (input.pos k) := fun i => ih i (hterms i) (hchildren i)
    have hat : (fun j => (terms j).energy (move input k (input.pos k))) =
        fun j => (terms j).energy input := by rw [move_self]
    have hderiv := hexact.hasDerivAt (E := fun x j => (terms j).energy (move input k x))
      (by rw [hat]; exact hc) hE
    refine hderiv.congr_deriv ?_
    rw [hat]
    simp only [Pot.force, mul_neg, Finset.sum_neg_distrib]

/-- Over every tree and whatever the slots hold from earlier calls: forces written at a geometry where
every expression is differentiable are minus the gradient of the written energy, and an inner expression
that is written out changes neither. -/
theorem expr_conservative_compositional (p : Pot ℝ) :
    (p.Lawful → ∀ (input : ForceInput ℝ), p.Smooth input → ∀ (k : Fin (3 * input.nAtoms))
      (s : ℝ → Slots p) (out : ℝ → ForceOut ℝ input.nAtoms) (f : Fin (3 * input.nAtoms) → ℝ),
      (p.forceImpl (s (input.pos k)) input (out (input.pos k))).1.F = some f →
      HasDerivAt (fun x => (p.forceImpl (s x) (move input k x) (out x)).1.energy) (-f k)
        (input.pos k)) ∧
    ∀ q, Substituted p q → ∀ (s : Slots p) (t : Slots q) (input : ForceInput ℝ)
      (out : ForceOut ℝ input.nAtoms),
      (q.forceImpl t input out).1.energy = (p.forceImpl s input out).1.energy ∧
        (q.forceImpl t input out).1.F = (p.forceImpl s input out).1.F := by
  constructor
  · intro hp input hsmooth k s out f hf
    have henergy : (fun x => (p.forceImpl (s x) (move input k x) (out x)).1.energy) =
        fun x => p.energy (move input k x) := by
      funext x
      exact (p.forceImpl_spec (s x) (move input k x) (out x)).1
    have hforce := (p.forceImpl_spec (s (input.pos k)) input (out (input.pos k))).2
    rw [hf] at hforce
    obtain ⟨_, _, hwritten⟩ := Option.map_eq_some_iff.mp hforce.symm
    rw [henergy, ← hwritten]
    exact Pot.hasDerivAt_energy hp hsmooth k
  · intro q hq s t input out
    obtain ⟨henergy, hforce⟩ := hq.same input
    obtain ⟨hp, hpF⟩ := p.forceImpl_spec s input out
    obtain ⟨hq, hqF⟩ := q.forceImpl_spec t input out
    exact ⟨by rw [hq, hp, henergy], by rw [hqF, hpF, hforce]⟩

section Crossing

/-- The literal `c`. -/
def constant (c : ℝ) : Formula ℝ String := .op ⟨0, fun _ => c, fun i _ => i.elim0⟩ Fin.elim0

noncomputable def add (x y : Formula ℝ String) : Formula ℝ String :=
  .op ⟨2, fun a => a 0 + a 1, fun _ _ => 1⟩ ![x, y]

noncomputable def multiply (x y : Formula ℝ String) : Formula ℝ String :=
  .op ⟨2, fun a => a 0 * a 1, fun i a => ![a 1, a 0] i⟩ ![x, y]

noncomputable def divide (x y : Formula ℝ String) : Formula ℝ String :=
  .op ⟨2, fun a => a 0 / a 1, fun i a => ![a 1 / a 1 ^ 2, -a 0 / a 1 ^ 2] i⟩ ![x, y]

/-- The second argument unless the first is zero, then the third; no derivative of the first. -/
noncomputable def select (c x y : Formula ℝ String) : Formula ℝ String :=
  .op ⟨3, fun a => if a 0 ≠ 0 then a 1 else a 2,
    fun i a => ![0, if a 0 ≠ 0 then 1 else 0, if a 0 ≠ 0 then 0 else 1] i⟩ ![c, x, y]

/-- `a*a + b*b`. -/
noncomputable def squares : Formula ℝ String :=
  add (multiply (.var "a") (.var "a")) (multiply (.var "b") (.var "b"))

/-- `select(a*a + b*b, a*a*b/(a*a + b*b), 0)`. -/
noncomputable def crossingFormula : Formula ℝ String :=
  select squares (divide (multiply (multiply (.var "a") (.var "a")) (.var "b")) squares) (constant 0)

noncomputable def crossing : Compiled ℝ 2 where
  name := !["a", "b"]
  expression := crossingFormula
  name_injective := by decide
  vars_subset := by
    intro x hx
    have hname : x = "a" ∨ x = "b" := by
      simpa [crossingFormula, select, squares, divide, multiply, add, constant, Formula.vars,
        Fin.exists_fin_succ] using hx
    rcases hname with rfl | rfl
    · exact ⟨0, rfl⟩
    · exact ⟨1, rfl⟩

theorem eval_add (v : String → ℝ) (x y : Formula ℝ String) :
    (add x y).eval v = x.eval v + y.eval v := rfl

theorem eval_multiply (v : String → ℝ) (x y : Formula ℝ String) :
    (multiply x y).eval v = x.eval v * y.eval v := rfl

theorem eval_divide (v : String → ℝ) (x y : Formula ℝ String) :
    (divide x y).eval v = x.eval v / y.eval v := rfl

theorem eval_select (v : String → ℝ) (c x y : Formula ℝ String) :
    (select c x y).eval v = if c.eval v ≠ 0 then x.eval v else y.eval v := rfl

theorem deriv_add (z : String) (v : String → ℝ) (x y : Formula ℝ String) :
    (add x y).deriv z v = x.deriv z v + y.deriv z v := by
  simp [add, Formula.deriv, Fin.sum_univ_two]

theorem deriv_multiply (z : String) (v : String → ℝ) (x y : Formula ℝ String) :
    (multiply x y).deriv z v = y.eval v * x.deriv z v + x.eval v * y.deriv z v := by
  simp [multiply, Formula.deriv, Fin.sum_univ_two]

theorem deriv_divide (z : String) (v : String → ℝ) (x y : Formula ℝ String) :
    (divide x y).deriv z v =
      (y.eval v * x.deriv z v - x.eval v * y.deriv z v) / y.eval v ^ 2 := by
  simp [divide, Formula.deriv, Fin.sum_univ_two]
  ring

theorem deriv_select (z : String) (v : String → ℝ) (c x y : Formula ℝ String) :
    (select c x y).deriv z v = if c.eval v ≠ 0 then x.deriv z v else y.deriv z v := by
  by_cases h : c.eval v = 0 <;> simp [select, Formula.deriv, Fin.sum_univ_three, h]

/-- Where both terms are zero the division is not reached, and it would give zero too. -/
theorem crossing_evaluate (v : Fin 2 → ℝ) :
    crossing.evaluate v = v 0 * v 0 * v 1 / (v 0 * v 0 + v 1 * v 1) := by
  have ha : crossing.locs v "a" = v 0 := crossing.locs_name v 0
  have hb : crossing.locs v "b" = v 1 := crossing.locs_name v 1
  change crossingFormula.eval (crossing.locs v) = _
  simp only [crossingFormula, eval_select, eval_divide, eval_multiply, squares, eval_add,
    Formula.eval, ha, hb]
  split
  · rfl
  · rename_i hzero
    rw [not_not.mp hzero, div_zero]
    rfl

/-- Both weights are those of the quotient away from the origin, and zero there. -/
theorem crossing_dEnergy (v : Fin 2 → ℝ) (i : Fin 2) : crossing.dEnergy v i =
    ((v 0 * v 0 + v 1 * v 1) * ![2 * v 0 * v 1, v 0 * v 0] i - v 0 * v 0 * v 1 * (2 * v i)) /
      (v 0 * v 0 + v 1 * v 1) ^ 2 := by
  have ha : crossing.locs v "a" = v 0 := crossing.locs_name v 0
  have hb : crossing.locs v "b" = v 1 := crossing.locs_name v 1
  have hnever : (constant 0).deriv (crossing.name i) (crossing.locs v) = 0 :=
    Formula.deriv_eq_zero (by simp [constant, Formula.vars])
  have hnames : crossing.name 0 = "a" ∧ crossing.name 1 = "b" := ⟨rfl, rfl⟩
  change crossingFormula.deriv (crossing.name i) (crossing.locs v) = _
  simp only [crossingFormula, deriv_select, deriv_divide, deriv_multiply, deriv_add, eval_multiply,
    squares, eval_add, Formula.eval, Formula.deriv, ha, hb, hnever]
  split
  · clear hnever
    congr 1
    revert i
    rw [Fin.forall_fin_two, hnames.1, hnames.2]
    constructor
    · simp only [if_true, String.reduceEq, if_false, Matrix.cons_val_zero]
      ring
    · simp only [if_true, String.reduceEq, if_false, Matrix.cons_val_one, Matrix.cons_val_fin_one]
      ring
  · rename_i hzero
    rw [not_not.mp hzero]
    simp

/-- A quotient by a sum of squares has the derivative of a quotient, and none but zero is possible where
the sum vanishes. -/
theorem crossing_exact : crossing.Exact := by
  intro v i d hd
  rw [crossing_dEnergy]
  simp only [crossing_evaluate] at hd
  by_cases hzero : v 0 * v 0 + v 1 * v 1 = 0
  · have h0 : v 0 = 0 := by nlinarith [mul_self_nonneg (v 0), mul_self_nonneg (v 1)]
    have h1 : v 1 = 0 := by nlinarith [mul_self_nonneg (v 0), mul_self_nonneg (v 1)]
    have hconst : (fun x => Function.update v i x 0 * Function.update v i x 0 *
        Function.update v i x 1 / (Function.update v i x 0 * Function.update v i x 0 +
          Function.update v i x 1 * Function.update v i x 1)) = fun _ => (0 : ℝ) := by
      funext x
      fin_cases i <;> simp [Function.update, h0, h1]
    rw [hconst] at hd
    rw [hd.unique (hasDerivAt_const _ _), hzero]
    simp
  · have hcoord : ∀ j, HasDerivAt (fun x => Function.update v i x j) ((Pi.single i 1 : Fin 2 → ℝ) j)
        (v i) := hasDerivAt_pi.mp (hasDerivAt_update v i (v i))
    have hden : Function.update v i (v i) 0 * Function.update v i (v i) 0 +
        Function.update v i (v i) 1 * Function.update v i (v i) 1 ≠ 0 := by
      rwa [Function.update_eq_self]
    have hquotient := (((hcoord 0).mul (hcoord 0)).mul (hcoord 1)).div
      (((hcoord 0).mul (hcoord 0)).add ((hcoord 1).mul (hcoord 1))) hden
    rw [hd.unique hquotient]
    simp only [Pi.mul_apply, Pi.add_apply, Function.update_eq_self]
    clear hd hcoord hden hquotient
    congr 1
    revert i
    rw [Fin.forall_fin_two]
    constructor
    · simp only [Pi.single_eq_same, Pi.single_eq_of_ne one_ne_zero, Matrix.cons_val_zero]
      ring
    · simp only [Pi.single_eq_same, Pi.single_eq_of_ne zero_ne_one, Matrix.cons_val_one,
        Matrix.cons_val_fin_one]
      ring

/-- The first coordinate as an energy. -/
noncomputable def height : Leaf ℝ where
  energy input := if h : 0 < 3 * input.nAtoms then input.pos ⟨0, h⟩ else 0
  force _ k := if k.val = 0 then -1 else 0
  variance _ := some 0

theorem height_energy (input : ForceInput ℝ) (h : 0 < 3 * input.nAtoms) :
    height.energy input = input.pos ⟨0, h⟩ := dif_pos h

theorem height_hasDerivAt (input : ForceInput ℝ) (k : Fin (3 * input.nAtoms)) :
    HasDerivAt (fun x => height.energy (move input k x)) (-height.force input k) (input.pos k) := by
  have henergy : (fun x => height.energy (move input k x)) =
      fun x => Function.update input.pos k x ⟨0, k.pos⟩ := by
    funext x
    exact height_energy (move input k x) k.pos
  rw [henergy]
  by_cases hk : k.val = 0
  · have hfirst : (⟨0, k.pos⟩ : Fin (3 * input.nAtoms)) = k := Fin.ext hk.symm
    have hforce : -height.force input k = 1 := by simp [height, hk]
    simp only [hfirst, Function.update_self, hforce]
    exact hasDerivAt_id' _
  · have hfirst : (⟨0, k.pos⟩ : Fin (3 * input.nAtoms)) ≠ k :=
      fun h => hk (congrArg Fin.val h).symm
    have hforce : -height.force input k = 0 := by simp [height, hk]
    simp only [Function.update_of_ne hfirst, hforce]
    exact hasDerivAt_const _ _

/-- Two children whose energies vanish together. -/
noncomputable def crossingPot : Pot ℝ := .expr crossing fun _ => .leaf height

/-- One atom at the origin. -/
def origin : ForceInput ℝ where
  nAtoms := 1
  pos _ := 0
  atmnrs _ := 1
  box _ := 0

/-- Its first coordinate. -/
def firstCoord : Fin (3 * origin.nAtoms) := ⟨0, by decide⟩

theorem crossingPot_lawful : crossingPot.Lawful :=
  ⟨crossing_exact, fun _ input k _ => height_hasDerivAt input k⟩

theorem crossingPot_energy (x : ℝ) :
    crossingPot.energy (move origin firstCoord x) = x / 2 := by
  have henergy : crossingPot.energy (move origin firstCoord x) = x * x * x / (x * x + x * x) :=
    crossing_evaluate _
  rw [henergy]
  by_cases hx : x = 0
  · simp [hx]
  · field_simp
    ring

theorem crossingPot_partialsExist : crossingPot.PartialsExist origin := by
  refine ⟨fun _ k => (height_hasDerivAt origin k).differentiableAt, ?_⟩
  intro i
  have hconst : (fun x => crossing.evaluate (Function.update
      (fun j : Fin 2 => (Pot.leaf height).energy origin) i x)) = fun _ => 0 := by
    funext x
    have hzero : (Pot.leaf height).energy origin = 0 := by simp [Pot.energy, height, origin]
    rw [crossing_evaluate, hzero]
    revert i
    rw [Fin.forall_fin_two]
    simp [Function.update]
  exact (hconst ▸ differentiableAt_const 0)

/-- Partial derivatives of every leaf and every expression are not enough: along the diagonal on which
the two children move, the root's energy is half the coordinate, and its force is zero. -/
theorem not_conservative_of_partials :
    ¬ ∀ (p : Pot ℝ), p.Lawful → ∀ (input : ForceInput ℝ), p.PartialsExist input →
      ∀ (k : Fin (3 * input.nAtoms)) (s : ℝ → Slots p) (out : ℝ → ForceOut ℝ input.nAtoms)
        (f : Fin (3 * input.nAtoms) → ℝ),
        (p.forceImpl (s (input.pos k)) input (out (input.pos k))).1.F = some f →
        HasDerivAt (fun x => (p.forceImpl (s x) (move input k x) (out x)).1.energy) (-f k)
          (input.pos k) := by
  intro h
  have hF := (crossingPot.forceImpl_spec (fun _ => 0, fun _ => ()) origin (childOut 1)).2
  have hderiv := h crossingPot crossingPot_lawful origin crossingPot_partialsExist firstCoord
    (fun _ => (fun _ => 0, fun _ => ())) (fun _ => childOut 1) (crossingPot.force origin) hF
  have henergy : (fun x => (crossingPot.forceImpl (fun _ => 0, fun _ => ())
      (move origin firstCoord x) (childOut 1)).1.energy) = fun x => x / 2 := by
    funext x
    exact (crossingPot.forceImpl_spec _ (move origin firstCoord x) _).1.trans
      (crossingPot_energy x)
  have hforce : crossingPot.force origin firstCoord = 0 := by
    simp [crossingPot, Pot.force, crossing_dEnergy, Pot.energy, height, origin]
  rw [henergy, hforce] at hderiv
  have hhalf : HasDerivAt (fun x : ℝ => x / 2) (1 / 2) (origin.pos firstCoord) :=
    (hasDerivAt_id _).div_const 2
  have := hderiv.unique hhalf
  norm_num at this

end Crossing

section Nested

/-- `a*a` of one term. -/
noncomputable def square : Compiled ℝ 1 where
  name _ := "a"
  expression := multiply (.var "a") (.var "a")
  name_injective i j _ := Subsingleton.elim i j
  vars_subset := by
    intro x hx
    have hname : x = "a" := by
      simpa [multiply, Formula.vars, Fin.exists_fin_succ] using hx
    exact ⟨0, hname.symm⟩

/-- `a + b` of two terms. -/
noncomputable def sum : Compiled ℝ 2 where
  name := !["a", "b"]
  expression := add (.var "a") (.var "b")
  name_injective := by decide
  vars_subset := by
    intro x hx
    have hname : x = "a" ∨ x = "b" := by
      simpa [add, Formula.vars, Fin.exists_fin_succ] using hx
    rcases hname with rfl | rfl
    · exact ⟨0, rfl⟩
    · exact ⟨1, rfl⟩

/-- `(a + b)*(a + b)` of two terms. -/
noncomputable def squareOfSum : Compiled ℝ 2 where
  name := !["a", "b"]
  expression := multiply (add (.var "a") (.var "b")) (add (.var "a") (.var "b"))
  name_injective := by decide
  vars_subset := by
    intro x hx
    have hname : x = "a" ∨ x = "b" := by
      simpa [multiply, add, Formula.vars, Fin.exists_fin_succ] using hx
    rcases hname with rfl | rfl
    · exact ⟨0, rfl⟩
    · exact ⟨1, rfl⟩

theorem bind_two {evaluate : (Fin 2 → ℝ) → ℝ} {slope : Fin 2 → (Fin 2 → ℝ) → ℝ}
    (f : String → Formula ℝ String) (x y : Formula ℝ String) :
    (Formula.op ⟨2, evaluate, slope⟩ ![x, y]).bind f =
      Formula.op ⟨2, evaluate, slope⟩ ![x.bind f, y.bind f] := by
  refine congrArg (Formula.op _) ?_
  funext i
  revert i
  rw [Fin.forall_fin_two]
  exact ⟨rfl, rfl⟩

theorem bind_multiply (f : String → Formula ℝ String) (x y : Formula ℝ String) :
    (multiply x y).bind f = multiply (x.bind f) (y.bind f) := bind_two f x y

theorem bind_add (f : String → Formula ℝ String) (x y : Formula ℝ String) :
    (add x y).bind f = add (x.bind f) (y.bind f) := bind_two f x y

theorem square_evaluate : square.evaluate = fun v => v 0 * v 0 := by
  funext v
  have ha : square.locs v "a" = v 0 := square.locs_name v 0
  change (multiply _ _).eval _ = _
  simp only [eval_multiply, Formula.eval, ha]

theorem sum_evaluate : sum.evaluate = fun v => v 0 + v 1 := by
  funext v
  have ha : sum.locs v "a" = v 0 := sum.locs_name v 0
  have hb : sum.locs v "b" = v 1 := sum.locs_name v 1
  change (add _ _).eval _ = _
  simp only [eval_add, Formula.eval, ha, hb]

theorem square_exact : square.Exact := by
  intro v i d hd
  have ha : square.locs v "a" = v 0 := square.locs_name v 0
  have hweight : square.dEnergy v i = 2 * v 0 := by
    change (multiply _ _).deriv "a" _ = _
    simp only [deriv_multiply, Formula.eval, Formula.deriv, ha, if_true]
    ring
  obtain rfl := Subsingleton.elim i 0
  rw [hweight]
  simp only [square_evaluate, Function.update_self] at hd
  have hsquare := (hasDerivAt_id' (v 0)).mul (hasDerivAt_id' (v 0))
  rw [hd.unique hsquare]
  ring

theorem sum_exact : sum.Exact := by
  intro v i d hd
  have hweight : sum.dEnergy v i = 1 := by
    change (add _ _).deriv (sum.name i) _ = _
    rw [deriv_add]
    revert i
    rw [Fin.forall_fin_two]
    exact ⟨fun _ => by simp [Formula.deriv, sum], fun _ => by simp [Formula.deriv, sum]⟩
  have hcoord : ∀ j, HasDerivAt (fun x => Function.update v i x j) ((Pi.single i 1 : Fin 2 → ℝ) j)
      (v i) := hasDerivAt_pi.mp (hasDerivAt_update v i (v i))
  rw [sum_evaluate] at hd
  rw [hweight, hd.unique ((hcoord 0).add (hcoord 1)), ← Fin.sum_univ_two, Finset.sum_pi_single']
  simp

noncomputable def nested : Pot ℝ := .expr square fun _ => .expr sum fun _ => .leaf height

noncomputable def flattened : Pot ℝ := .expr squareOfSum fun _ => .leaf height

theorem nested_substituted : Substituted nested flattened := by
  have hnone : IsEmpty {i : Fin 1 // i ≠ 0} := ⟨fun i => i.2 (Subsingleton.elim _ _)⟩
  have hflattens : Flattens square (fun _ => .expr sum fun _ => .leaf height) 0 sum
      (fun _ => .leaf height) squareOfSum fun _ => .leaf height := {
    place := (Equiv.emptySum {i : Fin 1 // i ≠ 0} (Fin 2)).symm
    outerName := id
    innerName := id
    terms_inner := rfl
    expression := by
      have hsum : square.flatten 0 sum id id "a" = add (.var "a") (.var "b") := by
        refine (if_pos rfl).trans ?_
        exact bind_add _ _ _
      change multiply _ _ = (multiply _ _).bind _
      rw [bind_multiply, Formula.bind, hsum]
    name_outer := fun i => (hnone.false i).elim
    terms_outer := fun i => (hnone.false i).elim
    name_inner := fun _ => rfl
    terms_inner_flat := fun _ => rfl }
  exact .here hflattens

theorem nested_lawful : nested.Lawful :=
  ⟨square_exact, fun _ => ⟨sum_exact, fun _ input k _ => height_hasDerivAt input k⟩⟩

theorem nested_smooth (input : ForceInput ℝ) : nested.Smooth input := by
  refine ⟨fun _ => ⟨fun _ k => (height_hasDerivAt input k).differentiableAt, ?_⟩, ?_⟩
  · rw [sum_evaluate]
    fun_prop
  · rw [square_evaluate]
    fun_prop

/-- A square over a sum, and the same expression written out, on one atom. -/
theorem expr_conservative_compositional_nested :
    HasDerivAt (fun x => (nested.forceImpl (fun _ => 0, fun _ => (fun _ => 0, fun _ => ()))
        (move origin firstCoord x) (childOut 1)).1.energy) (-nested.force origin firstCoord)
      (origin.pos firstCoord) ∧
    (flattened.forceImpl (fun _ => 0, fun _ => ()) origin (childOut 1)).1.energy =
      (nested.forceImpl (fun _ => 1, fun _ => (fun _ => 2, fun _ => ())) origin
        (childOut 1)).1.energy := by
  obtain ⟨hconservative, hcompositional⟩ := expr_conservative_compositional nested
  constructor
  · exact hconservative nested_lawful origin (nested_smooth origin) firstCoord
      (fun _ => (fun _ => 0, fun _ => (fun _ => 0, fun _ => ()))) (fun _ => childOut 1) _
      (nested.forceImpl_spec _ origin (childOut 1)).2
  · exact (hcompositional flattened nested_substituted _ _ origin (childOut 1)).1

end Nested
end Rgpot.ExprPot
