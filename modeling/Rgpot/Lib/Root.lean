import Rgpot.Lib.Numerals

/-! Square roots rounded outward: exact over the reals, computable over the rationals. -/

/-- A square root that may be rounded up. -/
class OutwardRoot (K : Type) where
  sqrt : K → K

namespace OutwardRoot

class Lawful (K : Type) [Field K] [LinearOrder K] [OutwardRoot K] : Prop where
  sqrt_nonneg : ∀ x : K, 0 ≤ sqrt x
  le_sqrt_mul_sqrt : ∀ x : K, x ≤ sqrt x * sqrt x

noncomputable instance : OutwardRoot ℝ := ⟨Real.sqrt⟩

instance : Lawful ℝ where
  sqrt_nonneg := Real.sqrt_nonneg
  le_sqrt_mul_sqrt x := by
    rcases le_or_gt 0 x with h | h
    · exact (Real.mul_self_sqrt h).ge
    · exact h.le.trans (mul_self_nonneg _)

/-- The integer root of `p q` over `q`, one higher unless it is exact. -/
def ratSqrt (x : ℚ) : ℚ :=
  let m := x.num.toNat * x.den
  let s := Nat.sqrt m
  (if s * s = m then s else s + 1 : ℕ) / x.den

/-- The root of a number whose `p q` lies between two squares. -/
theorem ratSqrt_eq {x : ℚ} {s : ℕ} (hle : s * s ≤ x.num.toNat * x.den)
    (hlt : x.num.toNat * x.den < (s + 1) * (s + 1)) :
    ratSqrt x = (if s * s = x.num.toNat * x.den then s else s + 1 : ℕ) / x.den := by
  have hs : s = Nat.sqrt (x.num.toNat * x.den) := Nat.eq_sqrt.mpr ⟨hle, hlt⟩
  rw [ratSqrt, ← hs]

theorem ratSqrt_nonneg (x : ℚ) : 0 ≤ ratSqrt x := by
  unfold ratSqrt
  positivity

theorem le_ratSqrt_mul_ratSqrt (x : ℚ) : x ≤ ratSqrt x * ratSqrt x := by
  have hd : (0 : ℚ) < x.den := by exact_mod_cast x.den_pos
  set m := x.num.toNat * x.den with hm
  have hroot : m ≤ (if Nat.sqrt m * Nat.sqrt m = m then Nat.sqrt m else Nat.sqrt m + 1) *
      (if Nat.sqrt m * Nat.sqrt m = m then Nat.sqrt m else Nat.sqrt m + 1) := by
    split
    · next h => exact h.ge
    · exact (Nat.lt_succ_sqrt m).le
  have hx : x * (x.den * x.den) ≤ m := by
    have hnum : (x.num : ℚ) ≤ x.num.toNat := by exact_mod_cast Int.self_le_toNat x.num
    calc x * (x.den * x.den) = x.num * x.den := by
          rw [← mul_assoc, Rat.mul_den_eq_num]
      _ ≤ x.num.toNat * x.den := mul_le_mul_of_nonneg_right hnum hd.le
      _ = m := by rw [hm]; push_cast; ring
  rw [ratSqrt, div_mul_div_comm, le_div_iff₀ (mul_pos hd hd)]
  exact hx.trans (by exact_mod_cast hroot)

instance : OutwardRoot ℚ := ⟨ratSqrt⟩

instance : Lawful ℚ where
  sqrt_nonneg := ratSqrt_nonneg
  le_sqrt_mul_sqrt := le_ratSqrt_mul_ratSqrt

end OutwardRoot
