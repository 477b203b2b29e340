import Mathlib

/-! Named instances behind the literals of the model, so that a literal is the same term in every module. -/

instance (priority := 2000) neZeroSucc (n : ℕ) : NeZero (n + 1) := ⟨Nat.succ_ne_zero n⟩

instance (priority := 3000) neZeroOne : NeZero (1 : ℕ) := ⟨by decide⟩
instance (priority := 3000) neZeroTwo : NeZero (2 : ℕ) := ⟨by decide⟩
instance (priority := 3000) neZeroThree : NeZero (3 : ℕ) := ⟨by decide⟩
instance (priority := 3000) neZeroSix : NeZero (6 : ℕ) := ⟨by decide⟩
instance (priority := 3000) neZeroNine : NeZero (9 : ℕ) := ⟨by decide⟩

instance atLeastTwoTwo : Nat.AtLeastTwo 2 := ⟨by decide⟩
instance atLeastTwoThree : Nat.AtLeastTwo 3 := ⟨by decide⟩
instance atLeastTwoFour : Nat.AtLeastTwo 4 := ⟨by decide⟩
instance atLeastTwoSix : Nat.AtLeastTwo 6 := ⟨by decide⟩
instance atLeastTwoTen : Nat.AtLeastTwo 10 := ⟨by decide⟩
instance atLeastTwoFifteen : Nat.AtLeastTwo 15 := ⟨by decide⟩
instance atLeastTwoThirty : Nat.AtLeastTwo 30 := ⟨by decide⟩
instance atLeastTwoMillion : Nat.AtLeastTwo 1000000 := ⟨by decide⟩

instance continuousSMulReal : ContinuousSMul ℝ ℝ := inferInstance
