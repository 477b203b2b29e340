import Rgpot.Rpc.Units
import Rgpot.Lib.Fallible

/-! The two servers of the `Potential` interface: `GenericPotImpl` in C++, `PotentialServer` in
Rust. -/
namespace Rgpot.Rpc
open Fallible Rgpot.Units

/-- A `ForceInput` message. -/
structure ForceInput (K : Type) where
  pos : List K
  atmnrs : List Int32
  box : List K
  lengthUnit : Text := "angstrom".toList
  energyUnit : Text := "eV".toList

/-- The fields of `PotentialResult` that a server fills in. -/
structure PotentialResult (K : Type) where
  energy : K
  forces : List K

/-- A potential in Angstrom and eV, as `operator()` evaluates it. -/
structure Potential (K : Type) where
  eval : List K → List Int32 → List K → Except Exn (PotentialResult K)
  length_forces : ∀ {pos atmnrs box res}, eval pos atmnrs box = .ok res →
    res.forces.length = pos.length

structure WellFormed {K : Type} (fip : ForceInput K) : Prop where
  length_pos : fip.pos.length = 3 * fip.atmnrs.length
  length_box : fip.box.length = 9

variable {K : Type}

/-- `v *= factor` on every entry, skipped when there is nothing to convert. -/
def scale [MulOneClass K] [DecidableEq K] (factor : K) (values : List K) : List K :=
  if factor ≠ 1 then values.map (· * factor) else values

/-- `GenericPotImpl::calculate`. -/
def calculate [Add K] [Sub K] [MulOneClass K] [Div K] [Zero K] [DecidableEq K] [Number K] (pot : Potential K) (fip : ForceInput K) :
    Except Exn (PotentialResult K) := do
  let numAtoms := fip.pos.length / 3
  if fip.atmnrs.length ≠ numAtoms then
    throw (.runtimeError "AtomNumbers size mismatch")
  let len_to_angstrom ← unit_conversion_factor fip.lengthUnit "angstrom".toList
  let ev_to_caller ← unit_conversion_factor "eV".toList fip.energyUnit
  -- the force unit of the caller
  let force_to_caller := ev_to_caller / len_to_angstrom
  let nativePositions := scale len_to_angstrom (fip.pos.take (3 * numAtoms))
  let nativeBoxMatrix := scale len_to_angstrom (fip.box.take 9)
  let res ← pot.eval nativePositions fip.atmnrs nativeBoxMatrix
  return { energy := res.energy * ev_to_caller, forces := scale force_to_caller res.forces }

/-- What a `PotentialCallback` leaves: its status, and the output structure. -/
structure CallbackReply (K : Type) where
  success : Bool
  energy : K
  forces : Option (List K)

/-- `PotentialServer::calculate` in Rust. -/
def PotentialServer.calculate (callback : List K → List Int32 → List K → CallbackReply K)
    (fip : ForceInput K) : Except Exn (PotentialResult K) :=
  let n_atoms := fip.atmnrs.length
  let output := callback (fip.pos.take (3 * n_atoms)) fip.atmnrs (fip.box.take 9)
  let forces := (output.forces.map fun f => f.take (n_atoms * 3)).getD []
  if output.success then .ok { energy := output.energy, forces := forces }
  else .error (.runtimeError "potential callback returned an error")

/-- A potential behind the C ABI. -/
def Potential.callback [Zero K] (pot : Potential K) (pos : List K) (atmnrs : List Int32) (box : List K) :
    CallbackReply K :=
  match pot.eval pos atmnrs box with
  | .ok res => ⟨true, res.energy, some res.forces⟩
  | .error _ => ⟨false, 0, none⟩

/-- Both reject, or both reply with the same numbers. -/
def Alike : Except Exn (PotentialResult K) → Except Exn (PotentialResult K) → Prop
  | .ok a, .ok b => a = b
  | .error _, .error _ => True
  | _, _ => False

theorem scale_eq [MulOneClass K] [DecidableEq K] (factor : K) (values : List K) :
    scale factor values = values.map (· * factor) := by
  by_cases h : factor = 1 <;> simp [scale, h]

variable {pot : Potential K} {fip : ForceInput K}

/-- On a well-formed request the C++ server replies exactly when the units convert and the
potential returns. -/
theorem calculate_eq_ok_iff [Add K] [Sub K] [MulOneClass K] [Div K] [Zero K] [DecidableEq K]
    [Number K] (hf : WellFormed fip) {reply : PotentialResult K} :
    calculate pot fip = .ok reply ↔
      ∃ a e res, unit_conversion_factor fip.lengthUnit "angstrom".toList = .ok a ∧
        unit_conversion_factor "eV".toList fip.energyUnit = .ok e ∧
        pot.eval (fip.pos.map (· * a)) fip.atmnrs (fip.box.map (· * a)) = .ok res ∧
        reply = { energy := res.energy * e, forces := res.forces.map (· * (e / a)) } := by
  have hatoms : fip.pos.length / 3 = fip.atmnrs.length := by
    have := hf.length_pos
    omega
  have hpos : fip.pos.take (3 * fip.atmnrs.length) = fip.pos :=
    List.take_of_length_le hf.length_pos.le
  have hbox : fip.box.take 9 = fip.box := List.take_of_length_le hf.length_box.le
  simp only [calculate, hatoms, hpos, hbox, scale_eq, ne_eq, not_true_eq_false, if_false]
  simp only [bind_eq_ok, pure, Except.pure, Except.ok.injEq]
  constructor
  · rintro ⟨a, ha, e, he, res, hres, rfl⟩
    exact ⟨a, e, res, ha, he, hres, rfl⟩
  · rintro ⟨a, e, res, ha, he, hres, rfl⟩
    exact ⟨a, ha, e, he, res, hres, rfl⟩

/-- On a well-formed request the Rust server replies what the potential returns. -/
theorem rust_calculate_eq [Zero K] (hf : WellFormed fip) :
    PotentialServer.calculate pot.callback fip =
      match pot.eval fip.pos fip.atmnrs fip.box with
      | .ok res => .ok res
      | .error _ => .error (.runtimeError "potential callback returned an error") := by
  have hpos : fip.pos.take (3 * fip.atmnrs.length) = fip.pos :=
    List.take_of_length_le hf.length_pos.le
  have hbox : fip.box.take 9 = fip.box := List.take_of_length_le hf.length_box.le
  simp only [PotentialServer.calculate, Potential.callback, hpos, hbox]
  cases hres : pot.eval fip.pos fip.atmnrs fip.box with
  | error e => rfl
  | ok res =>
    have hlen : res.forces.length ≤ fip.atmnrs.length * 3 := by
      have := pot.length_forces hres
      have := hf.length_pos
      omega
    simp [List.take_of_length_le hlen]

section Interoperability
variable [Add K] [Sub K] [MulOneClass K] [Div K] [Zero K] [DecidableEq K] [Number K]

/-- The unit strings of a request change none of its numbers: both convert, the energy factor is 1,
and the length factor leaves coordinates, box and forces alone. -/
def UnitsNeutral (fip : ForceInput K) : Prop :=
  ∃ a, unit_conversion_factor fip.lengthUnit "angstrom".toList = .ok a ∧
    unit_conversion_factor "eV".toList fip.energyUnit = .ok (1 : K) ∧
    fip.pos.map (· * a) = fip.pos ∧ fip.box.map (· * a) = fip.box ∧
    (fip.atmnrs = [] ∨ 1 / a = 1)

/-- One energy, and forces of one component value. -/
def uniform (value : K) : Potential K where
  eval pos _ _ := .ok { energy := value, forces := List.replicate pos.length value }
  length_forces h := by
    cases h
    exact List.length_replicate

/-- Returns on one geometry only. -/
def only (pos box : List K) : Potential K where
  eval p _ b :=
    if p = pos ∧ b = box then .ok { energy := 0, forces := List.replicate p.length 0 }
    else .error (.runtimeError "")
  length_forces h := by
    split at h
    · cases h
      exact List.length_replicate
    · cases h

/-- Where the Rust server replies, the C++ server replies the same. -/
theorem calculate_eq_of_alike (pot : Potential K) (hf : WellFormed fip) {res : PotentialResult K}
    (hres : pot.eval fip.pos fip.atmnrs fip.box = .ok res)
    (h : Alike (calculate pot fip) (PotentialServer.calculate pot.callback fip)) :
    calculate pot fip = .ok res := by
  rw [rust_calculate_eq hf, hres] at h
  cases hc : calculate pot fip with
  | error e => simp [hc, Alike] at h
  | ok reply =>
    rw [hc] at h
    exact congrArg Except.ok h

theorem alike_of_unitsNeutral (hf : WellFormed fip) (h : UnitsNeutral fip) :
    Alike (calculate pot fip) (PotentialServer.calculate pot.callback fip) := by
  obtain ⟨a, ha, he, hpos, hbox, hforce⟩ := h
  rw [rust_calculate_eq hf]
  cases hres : pot.eval fip.pos fip.atmnrs fip.box with
  | error e =>
    cases hc : calculate pot fip with
    | error _ => trivial
    | ok reply =>
      obtain ⟨a', e', res, ha', _, hres', _⟩ := (calculate_eq_ok_iff hf).mp hc
      obtain rfl : a' = a := Except.ok.inj (ha'.symm.trans ha)
      rw [hpos, hbox, hres] at hres'
      cases hres'
  | ok res =>
    have hscale : res.forces.map (· * (1 / a)) = res.forces := by
      rcases hforce with hnil | hone
      · have hlen := (pot.length_forces hres).trans hf.length_pos
        rw [hnil, List.length_nil, Nat.mul_zero, List.length_eq_zero_iff] at hlen
        rw [hlen, List.map_nil]
      · simp [hone]
    have hc : calculate pot fip = .ok { energy := res.energy * 1, forces := res.forces } := by
      refine (calculate_eq_ok_iff hf).mpr ⟨a, 1, res, ha, he, ?_, ?_⟩
      · rw [hpos, hbox, hres]
      · rw [hscale]
    rw [hc, mul_one]
    rfl

/-- The two servers answer a well-formed request alike, whatever the potential behind them, exactly
when the unit strings change none of its numbers. -/
theorem servers_alike_iff (fip : ForceInput K) (hf : WellFormed fip) :
    (∀ pot : Potential K,
        Alike (calculate pot fip) (PotentialServer.calculate pot.callback fip)) ↔
      UnitsNeutral fip := by
  constructor
  · intro h
    have hones := calculate_eq_of_alike (uniform 1) hf rfl (h _)
    obtain ⟨a, e, res, ha, he, hres, hreply⟩ := (calculate_eq_ok_iff hf).mp hones
    cases hres
    obtain rfl : e = 1 := by
      have henergy := congrArg PotentialResult.energy hreply
      simpa using henergy.symm
    have hforce : fip.atmnrs = [] ∨ 1 / a = 1 := by
      rcases List.eq_nil_or_concat fip.atmnrs with hnil | ⟨atoms, z, hz⟩
      · exact Or.inl hnil
      · have hlen := hf.length_pos
        rw [hz, List.concat_eq_append, List.length_append, List.length_singleton] at hlen
        have hforces := congrArg PotentialResult.forces hreply
        simp only [List.length_map, List.map_replicate, one_mul] at hforces
        have hone := (List.replicate_inj.mp hforces).2
        rcases hone with hzero | hone
        · omega
        · exact Or.inr hone.symm
    have hgeometry := calculate_eq_of_alike (only fip.pos fip.box) hf (if_pos ⟨rfl, rfl⟩)
      (h _)
    obtain ⟨a', _, res, ha', _, hres, _⟩ := (calculate_eq_ok_iff hf).mp hgeometry
    obtain rfl : a' = a := Except.ok.inj (ha'.symm.trans ha)
    simp only [only] at hres
    split at hres
    · rename_i hsame
      exact ⟨a', ha, he, hsame.1, hsame.2, hforce⟩
    · cases hres
  · intro h pot
    exact alike_of_unitsNeutral hf h

end Interoperability

section Examples

/-- One hydrogen atom in a box of edge 10, with unit strings. -/
def hydrogen (lengthUnit energyUnit : Text) : ForceInput ℝ where
  pos := [0, 0, 0]
  atmnrs := [1]
  box := [10, 0, 0, 0, 10, 0, 0, 0, 10]
  lengthUnit := lengthUnit
  energyUnit := energyUnit

theorem wellFormed_hydrogen (lengthUnit energyUnit : Text) :
    WellFormed (hydrogen lengthUnit energyUnit) := ⟨rfl, rfl⟩

theorem convert_angstrom :
    unit_conversion_factor "angstrom".toList "angstrom".toList = .ok (1 : ℝ) := by
  have hparse : parse_unit_expression "angstrom".toList =
      .ok (⟨Number.lit 1 (-10), DIM_LENGTH⟩ : UnitValue ℝ) := rfl
  rw [unit_conversion_factor_eq (by decide) (by decide) hparse hparse (Dimension.beq_self _)]
  norm_num [Number.lit]

theorem parse_eV : parse_unit_expression "eV".toList =
    .ok (⟨Number.lit 1602176634 (-28), DIM_ENERGY⟩ : UnitValue ℝ) := rfl

theorem convert_eV : unit_conversion_factor "eV".toList "eV".toList = .ok (1 : ℝ) := by
  rw [unit_conversion_factor_eq (by decide) (by decide) parse_eV parse_eV (Dimension.beq_self _)]
  norm_num [Number.lit]

theorem convert_meV : unit_conversion_factor "eV".toList "meV".toList = .ok (1000 : ℝ) := by
  have hmeV : parse_unit_expression "meV".toList =
      .ok (⟨Number.lit 1602176634 (-28) * Number.lit 1 (-3), DIM_ENERGY⟩ : UnitValue ℝ) := rfl
  rw [unit_conversion_factor_eq (by decide) (by decide) parse_eV hmeV (Dimension.beq_self _)]
  norm_num [Number.lit]

/-- One electronvolt asked for in `meV`: 1000 from the C++ server, 1 from the Rust server. -/
theorem not_servers_alike :
    ¬ ∀ (fip : ForceInput ℝ) (pot : Potential ℝ), WellFormed fip →
      Alike (calculate pot fip) (PotentialServer.calculate pot.callback fip) := by
  intro h
  have hf := wellFormed_hydrogen "angstrom".toList "meV".toList
  have hreply := calculate_eq_of_alike (uniform 1) hf rfl (h _ _ hf)
  obtain ⟨_, e, _, _, he, hres, hreply⟩ := (calculate_eq_ok_iff hf).mp hreply
  cases hres
  obtain rfl : e = 1000 := Except.ok.inj (he.symm.trans convert_meV)
  have henergy := congrArg PotentialResult.energy hreply
  norm_num at henergy

theorem servers_alike_angstrom_eV :
    Alike (calculate (uniform 1) (hydrogen "angstrom".toList "eV".toList))
      (PotentialServer.calculate (uniform (1 : ℝ)).callback
        (hydrogen "angstrom".toList "eV".toList)) :=
  (servers_alike_iff (hydrogen "angstrom".toList "eV".toList) (wellFormed_hydrogen _ _)).mpr
    ⟨1, convert_angstrom, convert_eV, by simp, by simp, Or.inr (by norm_num)⟩ (uniform 1)

end Examples

end Rgpot.Rpc
