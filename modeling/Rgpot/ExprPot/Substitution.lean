import Rgpot.ExprPot.Tree
import Mathlib.Algebra.BigOperators.Group.Finset.Sigma

/-! An inner `ExprPot` and its expression written into the outer one. -/
namespace Rgpot.ExprPot

variable {K : Type} {n m n' : ℕ}

/-- The expression of `c` with the inner expression in the place of term `i₀`, and all names
renamed. -/
def Compiled.flatten (c : Compiled K n) (i₀ : Fin n) (inner : Compiled K m)
    (outerName innerName : String → String) (x : String) : Formula K String :=
  if x = c.name i₀ then inner.expression.rename innerName else .var (outerName x)

/-- `flat` is `c` with the expression of term `i₀` written out: the other terms and the inner terms
keep their potentials, in any order and under any names. -/
structure Flattens (c : Compiled K n) (terms : Fin n → Pot K) (i₀ : Fin n) (inner : Compiled K m)
    (innerTerms : Fin m → Pot K) (flat : Compiled K n') (flatTerms : Fin n' → Pot K) : Type where
  place : Fin n' ≃ {i : Fin n // i ≠ i₀} ⊕ Fin m
  outerName : String → String
  innerName : String → String
  terms_inner : terms i₀ = .expr inner innerTerms
  expression : flat.expression = c.expression.bind (c.flatten i₀ inner outerName innerName)
  name_outer : ∀ i, flat.name (place.symm (.inl i)) = outerName (c.name i)
  terms_outer : ∀ i, flatTerms (place.symm (.inl i)) = terms i
  name_inner : ∀ j, flat.name (place.symm (.inr j)) = innerName (inner.name j)
  terms_inner_flat : ∀ j, flatTerms (place.symm (.inr j)) = innerTerms j

/-- One inner `ExprPot` of the first tree, at any depth, is written out in the second. -/
inductive Substituted : Pot K → Pot K → Prop
  | here {n m n' : ℕ} {c : Compiled K n} {terms : Fin n → Pot K} {i₀ : Fin n} {inner : Compiled K m}
      {innerTerms : Fin m → Pot K} {flat : Compiled K n'} {flatTerms : Fin n' → Pot K}
      (h : Flattens c terms i₀ inner innerTerms flat flatTerms) :
      Substituted (.expr c terms) (.expr flat flatTerms)
  | under {n : ℕ} (c : Compiled K n) (terms : Fin n → Pot K) (i : Fin n) {q : Pot K}
      (h : Substituted (terms i) q) :
      Substituted (.expr c terms) (.expr c (Function.update terms i q))

variable [CommRing K]

theorem Compiled.evaluate_congr (c : Compiled K n) {v : String → K} {slots : Fin n → K}
    (h : ∀ i, v (c.name i) = slots i) : c.expression.eval v = c.evaluate slots := by
  apply Formula.eval_congr
  intro x hx
  obtain ⟨i, rfl⟩ := c.vars_subset hx
  rw [h i, c.locs_name]

theorem Compiled.dEnergy_congr (c : Compiled K n) {v : String → K} {slots : Fin n → K}
    (h : ∀ i, v (c.name i) = slots i) (i : Fin n) :
    c.expression.deriv (c.name i) v = c.dEnergy slots i := by
  apply Formula.deriv_congr
  intro x hx
  obtain ⟨j, rfl⟩ := c.vars_subset hx
  rw [h j, c.locs_name]

namespace Flattens
variable {c : Compiled K n} {terms : Fin n → Pot K} {i₀ : Fin n} {inner : Compiled K m}
  {innerTerms : Fin m → Pot K} {flat : Compiled K n'} {flatTerms : Fin n' → Pot K}
  (h : Flattens c terms i₀ inner innerTerms flat flatTerms) (input : ForceInput K)

/-- The values the flat expression reads. -/
def flatValues (_ : Flattens c terms i₀ inner innerTerms flat flatTerms) : String → K :=
  flat.locs fun i => (flatTerms i).energy input

theorem flatValues_outer (i : {i : Fin n // i ≠ i₀}) :
    h.flatValues input (h.outerName (c.name i)) = (terms i).energy input := by
  rw [← h.name_outer, flatValues, flat.locs_name, h.terms_outer]

theorem flatValues_inner (j : Fin m) :
    h.flatValues input (h.innerName (inner.name j)) = (innerTerms j).energy input := by
  rw [← h.name_inner, flatValues, flat.locs_name, h.terms_inner_flat]

/-- Written out, each term of the outer expression has the value its slot had. -/
theorem eval_flatten (i : Fin n) :
    (c.flatten i₀ inner h.outerName h.innerName (c.name i)).eval (h.flatValues input) =
      (terms i).energy input := by
  by_cases hi : i = i₀
  · rw [hi, Compiled.flatten, if_pos rfl, Formula.eval_rename, h.terms_inner, Pot.energy]
    exact inner.evaluate_congr (h.flatValues_inner input)
  · have hne : c.name i ≠ c.name i₀ := c.name_injective.ne hi
    rw [Compiled.flatten, if_neg hne]
    exact h.flatValues_outer input ⟨i, hi⟩

include h in
theorem energy_eq : (Pot.expr flat flatTerms).energy input = (Pot.expr c terms).energy input := by
  change flat.expression.eval (h.flatValues input) = _
  rw [h.expression, Formula.eval_bind]
  exact c.evaluate_congr (h.eval_flatten input)

/-- The weight of a term in the flat expression, by the chain rule over the outer terms. -/
theorem dEnergy_flat (k : Fin n') : flat.dEnergy (fun i => (flatTerms i).energy input) k =
    ∑ i, c.dEnergy (fun j => (terms j).energy input) i *
      (c.flatten i₀ inner h.outerName h.innerName (c.name i)).deriv (flat.name k)
        (h.flatValues input) := by
  change flat.expression.deriv (flat.name k) (h.flatValues input) = _
  rw [h.expression, Formula.deriv_bind c.name_injective _ _ _ c.vars_subset]
  apply Finset.sum_congr rfl
  intro i _
  rw [c.dEnergy_congr (h.eval_flatten input)]

/-- A term that stays keeps its weight. -/
theorem dEnergy_outer (i : {i : Fin n // i ≠ i₀}) :
    flat.dEnergy (fun k => (flatTerms k).energy input) (h.place.symm (.inl i)) =
      c.dEnergy (fun j => (terms j).energy input) i := by
  rw [h.dEnergy_flat, Finset.sum_eq_single i.val]
  · have hne : c.name i ≠ c.name i₀ := c.name_injective.ne i.2
    rw [Compiled.flatten, if_neg hne, h.name_outer]
    simp [Formula.deriv]
  · intro l _ hl
    by_cases hl₀ : l = i₀
    · rw [hl₀, Compiled.flatten, if_pos rfl, Formula.deriv_eq_zero, mul_zero]
      rw [Formula.rename, Formula.vars_bind]
      intro hmem
      obtain ⟨x, hx, hname⟩ := Set.mem_iUnion₂.mp hmem
      obtain ⟨j, rfl⟩ := inner.vars_subset hx
      have hsame : flat.name (h.place.symm (.inl i)) = flat.name (h.place.symm (.inr j)) := by
        rw [h.name_inner]
        exact hname
      have := h.place.symm.injective (flat.name_injective hsame)
      cases this
    · have hne : c.name l ≠ c.name i₀ := c.name_injective.ne hl₀
      rw [Compiled.flatten, if_neg hne, Formula.deriv, if_neg, mul_zero]
      intro hname
      rw [← h.name_outer ⟨l, hl₀⟩] at hname
      have hplace := h.place.symm.injective (flat.name_injective hname)
      exact hl (congrArg Subtype.val (Sum.inl.inj hplace))
  · intro hmem
    exact (hmem (Finset.mem_univ _)).elim

/-- A term of the inner expression has the product of the two weights. -/
theorem dEnergy_inner (j : Fin m) :
    flat.dEnergy (fun k => (flatTerms k).energy input) (h.place.symm (.inr j)) =
      c.dEnergy (fun i => (terms i).energy input) i₀ *
        inner.dEnergy (fun k => (innerTerms k).energy input) j := by
  rw [h.dEnergy_flat, Finset.sum_eq_single i₀]
  · rw [Compiled.flatten, if_pos rfl, h.name_inner, Formula.deriv_rename]
    · rw [inner.dEnergy_congr (h.flatValues_inner input)]
    · intro x hx hname
      obtain ⟨k, rfl⟩ := inner.vars_subset hx
      rw [← h.name_inner, ← h.name_inner] at hname
      have hplace := h.place.symm.injective (flat.name_injective hname)
      rw [Sum.inr.inj hplace]
  · intro l _ hl
    have hne : c.name l ≠ c.name i₀ := c.name_injective.ne hl
    rw [Compiled.flatten, if_neg hne, Formula.deriv, if_neg, mul_zero]
    intro hname
    rw [← h.name_outer ⟨l, hl⟩] at hname
    have hplace := h.place.symm.injective (flat.name_injective hname)
    cases hplace
  · intro hmem
    exact (hmem (Finset.mem_univ _)).elim

include h in
theorem force_eq (k : Fin (3 * input.nAtoms)) :
    (Pot.expr flat flatTerms).force input k = (Pot.expr c terms).force input k := by
  simp only [Pot.force]
  rw [← h.place.symm.sum_comp, Fintype.sum_sum_type, Fintype.sum_eq_add_sum_subtype_ne _ i₀,
    h.terms_inner, Pot.force, Finset.mul_sum, add_comm]
  congr 1
  · apply Finset.sum_congr rfl
    intro j _
    rw [h.dEnergy_inner, h.terms_inner_flat, mul_assoc]
  · apply Finset.sum_congr rfl
    intro i _
    rw [h.dEnergy_outer, h.terms_outer]

end Flattens

/-- Writing out an inner expression changes no energy and no force: induction over the place of the
inner potential. -/
theorem Substituted.same {p q : Pot K} (h : Substituted p q) (input : ForceInput K) :
    q.energy input = p.energy input ∧ q.force input = p.force input := by
  induction h with
  | here h => exact ⟨h.energy_eq input, funext fun k => h.force_eq input k⟩
  | @under _ c terms i q _ ih =>
    have hsame : ∀ j, (Function.update terms i q j).energy input = (terms j).energy input ∧
        (Function.update terms i q j).force input = (terms j).force input := by
      intro j
      by_cases hj : j = i
      · subst hj
        rw [Function.update_self]
        exact ih
      · rw [Function.update_of_ne hj]
        exact ⟨rfl, rfl⟩
    constructor
    · simp only [Pot.energy, hsame]
    · simp only [Pot.force, hsame]

end Rgpot.ExprPot
