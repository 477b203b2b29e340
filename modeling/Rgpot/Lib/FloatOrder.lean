import Rgpot.Lib.BinaryFloat

/-! Rounding keeps the order, so a bound may be rounded before it is compared. -/
namespace BinaryFormat

theorem roundHalfEven_mono {y z : ℚ} (h : y ≤ z) : roundHalfEven y ≤ roundHalfEven z := by
  have hfloor : ⌊y⌋₊ ≤ ⌊z⌋₊ := Nat.floor_mono h
  have hz := floor_le_roundHalfEven z
  unfold roundHalfEven at hz ⊢
  simp only at hz ⊢
  rcases hfloor.lt_or_eq with hlt | heq
  · split <;> omega
  · rw [← heq] at hz ⊢
    split
    · exact hz
    · rename_i hup
      rw [if_neg]
      rintro (hdown | ⟨hhalf, heven⟩)
      · exact hup (Or.inl (by linarith))
      · rcases (show y - ⌊y⌋₊ ≤ 1 / 2 by linarith).lt_or_eq with hlt | hhalf'
        · exact hup (Or.inl hlt)
        · exact hup (Or.inr ⟨hhalf', heven⟩)

variable {F : BinaryFormat}

theorem step_mono {x y : ℚ} (h : x ≤ y) : F.step x ≤ F.step y := by
  have hfloor : ⌊x⌋₊ ≤ ⌊y⌋₊ := Nat.floor_mono h
  have hlog : Nat.log2 ⌊x⌋₊ ≤ Nat.log2 ⌊y⌋₊ := by
    rw [Nat.log2_eq_log_two, Nat.log2_eq_log_two]
    exact Nat.log_mono_right hfloor
  exact Nat.sub_le_sub_right hlog _

theorem round_mono {x y : ℚ} (hx : 0 ≤ x) (h : x ≤ y) : F.round x ≤ F.round y := by
  rcases (step_mono (F := F) h).lt_or_eq with hlt | heq
  · -- a power of two lies between them
    obtain ⟨hxhi, -⟩ := scaled_bounds (F := F) hx
    obtain ⟨-, hylo⟩ := scaled_bounds (F := F) (hx.trans h)
    have hbelow : roundHalfEven (x / 2 ^ F.step x) ≤ 2 ^ (F.fraction + 1) := by
      apply roundHalfEven_le
      exact_mod_cast hxhi.le
    have habove : 2 ^ F.fraction ≤ roundHalfEven (y / 2 ^ F.step y) := by
      refine le_trans (Nat.le_floor ?_) (floor_le_roundHalfEven _)
      exact_mod_cast hylo (by omega)
    calc F.round x ≤ 2 ^ (F.fraction + 1) * 2 ^ F.step x := Nat.mul_le_mul_right _ hbelow
      _ = 2 ^ (F.fraction + 1 + F.step x) := (pow_add 2 _ _).symm
      _ ≤ 2 ^ (F.fraction + F.step y) := Nat.pow_le_pow_right (by norm_num) (by omega)
      _ = 2 ^ F.fraction * 2 ^ F.step y := pow_add 2 _ _
      _ ≤ F.round y := Nat.mul_le_mul_right _ habove
  · rw [round, round, heq]
    apply Nat.mul_le_mul_right
    apply roundHalfEven_mono
    gcongr

/-- The finite numbers of the format without their signs, in units. -/
abbrev Magnitude (F : BinaryFormat) : Type := { u : ℕ // F.Representable u }

/-- A bound that is rounded up excludes the same numbers of the format. -/
theorem lt_iff_round_le {x : ℚ} (hx : 0 ≤ x) (hup : x < F.round x) (u : Magnitude F) :
    x < (u : ℕ) ↔ F.round x ≤ u := by
  constructor
  · intro h
    have := round_mono (F := F) hx h.le
    rwa [u.2.1] at this
  · intro h
    exact hup.trans_le (by exact_mod_cast h)

theorem representable_round {x : ℚ} (hx : 0 ≤ x) (hle : x ≤ (2 ^ F.bias : ℕ)) :
    F.Representable (F.round x) := by
  refine ⟨round_round hx, ?_⟩
  have hone := BinaryFloat.representable_one (F := F)
  calc F.round x ≤ F.round ((2 ^ F.bias : ℕ) : ℚ) := round_mono hx hle
    _ = 2 ^ F.bias := hone.1
    _ < 2 ^ F.top := Nat.pow_lt_pow_right (by norm_num) F.bias_lt

/-- IEEE single precision. -/
def single : BinaryFormat := ⟨23, 149, 277, by decide, by decide, by decide⟩

/-- IEEE double precision. -/
def double : BinaryFormat := ⟨52, 1074, 2098, by decide, by decide, by decide⟩

/-- The value of an integer as a number of the format, in units. -/
def ofInt (F : BinaryFormat) (z : ℤ) : ℤ :=
  BinaryFloat.signed (decide (z < 0)) (F.round ((z.natAbs * 2 ^ F.bias : ℕ) : ℚ))

end BinaryFormat
