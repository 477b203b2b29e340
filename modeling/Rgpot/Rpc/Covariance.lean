import Rgpot.Rpc.Server
import Mathlib.Analysis.Calculus.Deriv.Mul
import Mathlib.Analysis.Calculus.Deriv.Comp

/-! Units of a reply: when the forces are minus the gradient of the energy it carries. -/
namespace Rgpot.Rpc
open Rgpot.Units

/-- A potential whose forces are minus the partial derivatives of its energy. -/
structure Conservative where
  E : List ℝ → List Int32 → List ℝ → ℝ
  F : List ℝ → List Int32 → List ℝ → List ℝ
  length_F : ∀ x z h, (F x z h).length = x.length
  gradient : ∀ (x : List ℝ) (z : List Int32) (h : List ℝ) (k : ℕ), k < x.length →
    HasDerivAt (fun t => E (x.set k t) z h) (-(F x z h).getD k 0) (x.getD k 0)

def Conservative.potential (p : Conservative) : Potential ℝ where
  eval x z h := .ok { energy := p.E x z h, forces := p.F x z h }
  length_forces h := by
    cases h
    exact p.length_F _ _ _

/-- The energy of the reply to a request. -/
noncomputable def replyEnergy (p : Conservative) (fip : ForceInput ℝ) : ℝ :=
  match calculate p.potential fip with
  | .ok reply => reply.energy
  | .error _ => 0

variable {p : Conservative} {fip : ForceInput ℝ} {a e : ℝ}

/-- The reply when both units convert. -/
theorem calculate_conservative (p : Conservative) (hf : WellFormed fip)
    (ha : unit_conversion_factor fip.lengthUnit "angstrom".toList = .ok a)
    (he : unit_conversion_factor "eV".toList fip.energyUnit = .ok e) :
    calculate p.potential fip = .ok
      { energy := p.E (fip.pos.map (· * a)) fip.atmnrs (fip.box.map (· * a)) * e
        forces := (p.F (fip.pos.map (· * a)) fip.atmnrs (fip.box.map (· * a))).map (· * (e / a)) } :=
  (calculate_eq_ok_iff hf).mpr ⟨a, e, _, ha, he, rfl, rfl⟩

theorem WellFormed.set (hf : WellFormed fip) (k : ℕ) (t : ℝ) :
    WellFormed { fip with pos := fip.pos.set k t } :=
  ⟨by simpa using hf.length_pos, hf.length_box⟩

/-- The chain rule through the conversion of the coordinates. -/
theorem hasDerivAt_replyEnergy (hf : WellFormed fip)
    (ha : unit_conversion_factor fip.lengthUnit "angstrom".toList = .ok a)
    (he : unit_conversion_factor "eV".toList fip.energyUnit = .ok e) {k : ℕ}
    (hk : k < fip.pos.length) :
    HasDerivAt (fun t => replyEnergy p { fip with pos := fip.pos.set k t })
      (-(p.F (fip.pos.map (· * a)) fip.atmnrs (fip.box.map (· * a))).getD k 0 * a * e)
      (fip.pos.getD k 0) := by
  have hreply : (fun t => replyEnergy p { fip with pos := fip.pos.set k t }) = fun t =>
      p.E ((fip.pos.map (· * a)).set k (t * a)) fip.atmnrs (fip.box.map (· * a)) * e := by
    funext t
    simp only [replyEnergy, calculate_conservative p (hf.set k t) ha he, List.map_set]
  have hpoint : (fip.pos.map (· * a)).getD k 0 = fip.pos.getD k 0 * a := by
    simp [List.getD_eq_getElem?_getD, hk]
  have hinner : HasDerivAt (fun t : ℝ => t * a) a (fip.pos.getD k 0) := hasDerivAt_mul_const a
  have houter := p.gradient (fip.pos.map (· * a)) fip.atmnrs (fip.box.map (· * a)) k
    (by simpa using hk)
  rw [hpoint] at houter
  rw [hreply]
  exact (HasDerivAt.comp (h := fun t : ℝ => t * a) _ houter hinner).mul_const e

/-- One force component has the right power of the length factor. -/
theorem force_eq_iff (ha : a ≠ 0) (he : e ≠ 0) (f : ℝ) :
    f * (e / a) = f * (e * a) ↔ a ^ 2 = 1 ∨ f = 0 := by
  constructor
  · intro h
    by_cases hf : f = 0
    · exact Or.inr hf
    · have hratio : e / a = e * a := mul_left_cancel₀ hf h
      rw [div_eq_iff ha, mul_assoc] at hratio
      have hone : a * a = 1 := mul_left_cancel₀ he (by rw [← hratio, mul_one])
      exact Or.inl (by rw [pow_two, hone])
  · rintro (hone | rfl)
    · have hinv : e / a = e * a := by
        rw [div_eq_iff ha, mul_assoc, ← pow_two, hone, mul_one]
      rw [hinv]
    · simp

/-- With units that convert, the reply carries the energy in the caller's units, and its forces are
those of that energy exactly for a length unit of one Angstrom or where every force vanishes. -/
theorem forces_covariant_iff (p : Conservative) (fip : ForceInput ℝ) (hf : WellFormed fip)
    (ha : unit_conversion_factor fip.lengthUnit "angstrom".toList = .ok a)
    (he : unit_conversion_factor "eV".toList fip.energyUnit = .ok e) (ha₀ : a ≠ 0) (he₀ : e ≠ 0) :
    let x := fip.pos.map (· * a)
    let h := fip.box.map (· * a)
    ∃ reply, calculate p.potential fip = .ok reply ∧ reply.energy = e * p.E x fip.atmnrs h ∧
      (reply.forces = (p.F x fip.atmnrs h).map (e * a * ·) ↔
        a ^ 2 = 1 ∨ ∀ f ∈ p.F x fip.atmnrs h, f = 0) ∧
      ((∀ k < fip.pos.length,
          HasDerivAt (fun t => replyEnergy p { fip with pos := fip.pos.set k t })
            (-reply.forces.getD k 0) (fip.pos.getD k 0)) ↔
        a ^ 2 = 1 ∨ ∀ f ∈ p.F x fip.atmnrs h, f = 0) := by
  intro x h
  have hcomponents : (∀ f ∈ p.F x fip.atmnrs h, f * (e / a) = f * (e * a)) ↔
      a ^ 2 = 1 ∨ ∀ f ∈ p.F x fip.atmnrs h, f = 0 := by
    simp only [force_eq_iff ha₀ he₀]
    constructor
    · intro hall
      by_cases hone : a ^ 2 = 1
      · exact Or.inl hone
      · exact Or.inr fun f hmem => (hall f hmem).resolve_left hone
    · rintro (hone | hzero) f hmem
      · exact Or.inl hone
      · exact Or.inr (hzero f hmem)
  refine ⟨_, calculate_conservative p hf ha he, mul_comm _ _, ?_, ?_⟩
  · rw [← hcomponents]
    have hflip : (p.F x fip.atmnrs h).map (e * a * ·) = (p.F x fip.atmnrs h).map (· * (e * a)) :=
      List.map_congr_left fun f _ => mul_comm _ _
    rw [hflip]
    exact List.map_inj_left
  · rw [← hcomponents]
    have hlen : (p.F x fip.atmnrs h).length = fip.pos.length := by
      rw [p.length_F]
      exact List.length_map _
    have hgetD : ∀ k, ((p.F x fip.atmnrs h).map (· * (e / a))).getD k 0 =
        (p.F x fip.atmnrs h).getD k 0 * (e / a) := by
      intro k
      simp only [List.getD_eq_getElem?_getD, List.getElem?_map]
      cases (p.F x fip.atmnrs h)[k]? <;> simp
    constructor
    · intro hgrad f hmem
      obtain ⟨k, hk, rfl⟩ := List.mem_iff_getElem.mp hmem
      have hk' : k < fip.pos.length := hlen ▸ hk
      have huniq := (hgrad k hk').unique (hasDerivAt_replyEnergy hf ha he hk')
      rw [hgetD, List.getD_eq_getElem _ _ hk] at huniq
      linarith
    · intro hall k hk
      have hk' : k < (p.F x fip.atmnrs h).length := hlen ▸ hk
      have hderiv := hasDerivAt_replyEnergy (p := p) hf ha he hk
      have heq := hall _ (List.getElem_mem hk')
      refine hderiv.congr_deriv ?_
      rw [hgetD, List.getD_eq_getElem _ _ hk', heq]
      ring

/-- The sum of the coordinates, with forces of -1. -/
noncomputable def ramp : Conservative where
  E x _ _ := x.sum
  F x _ _ := List.replicate x.length (-1)
  length_F x _ _ := List.length_replicate
  gradient x _ _ k hk := by
    have hsum : (fun t => (x.set k t).sum) = fun t =>
        (x.take k).sum + t + (x.drop (k + 1)).sum := by
      funext t
      simp [List.sum_set, hk]
    have hforce : -(List.replicate x.length (-1 : ℝ)).getD k 0 = 1 := by
      simp [List.getD_eq_getElem?_getD, hk]
    rw [hsum, hforce]
    exact ((hasDerivAt_id _).const_add _).add_const _

theorem convert_nm : unit_conversion_factor "nm".toList "angstrom".toList = .ok (10 : ℝ) := by
  have hnm : parse_unit_expression "nm".toList =
      .ok (⟨Number.lit 1 (-9), DIM_LENGTH⟩ : UnitValue ℝ) := rfl
  have hangstrom : parse_unit_expression "angstrom".toList =
      .ok (⟨Number.lit 1 (-10), DIM_LENGTH⟩ : UnitValue ℝ) := rfl
  rw [unit_conversion_factor_eq (by decide) (by decide) hnm hangstrom (Dimension.beq_self _)]
  norm_num [Number.lit]

/-- Coordinates in nanometers: the energy has slope 10 in each of them, the forces are -1/10. -/
theorem not_forces_covariant :
    ¬ ∀ (p : Conservative) (fip : ForceInput ℝ) (a e : ℝ), WellFormed fip →
      unit_conversion_factor fip.lengthUnit "angstrom".toList = .ok a →
      unit_conversion_factor "eV".toList fip.energyUnit = .ok e → a ≠ 0 → e ≠ 0 →
      ∃ reply, calculate p.potential fip = .ok reply ∧
        ∀ k < fip.pos.length,
          HasDerivAt (fun t => replyEnergy p { fip with pos := fip.pos.set k t })
            (-reply.forces.getD k 0) (fip.pos.getD k 0) := by
  intro h
  have hf := wellFormed_hydrogen "nm".toList "eV".toList
  obtain ⟨reply, hreply, hgrad⟩ := h ramp _ 10 1 hf convert_nm convert_eV (by norm_num) one_ne_zero
  rw [calculate_conservative ramp hf convert_nm convert_eV] at hreply
  obtain rfl := Except.ok.inj hreply
  have hk : 0 < (hydrogen "nm".toList "eV".toList).pos.length := by simp [hydrogen]
  have huniq := (hgrad 0 hk).unique (hasDerivAt_replyEnergy hf convert_nm convert_eV hk)
  norm_num [ramp, hydrogen] at huniq

theorem forces_covariant_angstrom :
    ∃ reply, calculate ramp.potential (hydrogen "angstrom".toList "meV".toList) = .ok reply ∧
      reply.forces = [-1000, -1000, -1000] := by
  obtain ⟨reply, hreply, _, hforces, _⟩ := forces_covariant_iff ramp
    (hydrogen "angstrom".toList "meV".toList) (wellFormed_hydrogen _ _) convert_angstrom convert_meV
    one_ne_zero (by norm_num)
  refine ⟨reply, hreply, (hforces.mpr (Or.inl (one_pow 2))).trans ?_⟩
  simp [ramp, hydrogen, List.replicate]

end Rgpot.Rpc
