import Rgpot.Lib.SignedPermutation
import Rgpot.Nlist.Basic

/-! `rotation_group`: the orbits of 24 and of 12 signed permutation matrices. -/
namespace Rgpot.Metatomic

def perms : Fin 6 → Fin 3 → Fin 3 :=
  ![![0, 1, 2], ![1, 2, 0], ![2, 0, 1], ![0, 2, 1], ![1, 0, 2], ![2, 1, 0]]

def perm_even : Fin 6 → Bool := ![true, true, true, false, false, false]

/-- `(sbits & (1 << r)) ? -1 : 1`. -/
def signOf (sbits : Fin 8) (r : Fin 3) : ℤ := if sbits.val.testBit r then -1 else 1

/-- `n_minus`. -/
def minuses (sbits : Fin 8) : ℕ := ∑ r : Fin 3, if sbits.val.testBit r then 1 else 0

/-- `R[r][perms[p][r]] = s_r`, zero elsewhere. -/
def signedMatrix (p : Fin 6) (sbits : Fin 8) : Matrix (Fin 3) (Fin 3) ℤ :=
  fun r c => if perms p r = c then signOf sbits r else 0

/-- The filters of the loop body: `det` and, for `want_tetra`, the parities. -/
def kept (n : ℤ) (p : Fin 6) (sbits : Fin 8) : Bool :=
  let det := (if perm_even p then 1 else -1) * signOf sbits 0 * signOf sbits 1 * signOf sbits 2
  det = 1 ∧ ¬ (n < 24 ∧ (perm_even p = false ∨ minuses sbits % 2 ≠ 0))

def rotation_group (n : ℤ) : List (Matrix (Fin 3) (Fin 3) ℤ) :=
  (List.finRange 6).flatMap fun p =>
    (List.finRange 8).filterMap fun sbits =>
      if kept n p sbits then some (signedMatrix p sbits) else none

/-- The signed permutations the filters keep. -/
def Selected (n : ℤ) (s : SignedPerm (Fin 3)) : Prop :=
  s.parity * s.flips = 1 ∧ (n < 24 → s.parity = 1 ∧ s.flips = 1)

variable {n : ℤ} {R Q : Matrix (Fin 3) (Fin 3) ℤ} {s t : SignedPerm (Fin 3)}

theorem Selected.mul (hs : Selected n s) (ht : Selected n t) : Selected n (s.mul t) := by
  refine ⟨?_, fun hn => ?_⟩
  · rw [s.parity_mul, s.flips_mul, mul_mul_mul_comm, hs.1, ht.1, mul_one]
  · obtain ⟨hsp, hsf⟩ := hs.2 hn
    obtain ⟨htp, htf⟩ := ht.2 hn
    rw [s.parity_mul, s.flips_mul, hsp, hsf, htp, htf, mul_one]
    exact ⟨rfl, rfl⟩

/-- The table of permutations is the symmetric group, and its flags are the signs. -/
theorem exists_row (σ : Equiv.Perm (Fin 3)) : ∃ p : Fin 6, (∀ r, perms p r = σ r) ∧
    Equiv.Perm.sign σ = if perm_even p then 1 else -1 := by
  revert σ
  decide

theorem exists_perm (p : Fin 6) : ∃ σ : Equiv.Perm (Fin 3), (∀ r, perms p r = σ r) ∧
    Equiv.Perm.sign σ = if perm_even p then 1 else -1 := by
  revert p
  decide

/-- The three bits are the signs, and their parity is the product. -/
theorem exists_bits (f : Fin 3 → ℤˣ) : ∃ sbits : Fin 8, (∀ r, signOf sbits r = f r) ∧
    (minuses sbits % 2 = 0 ↔ ∏ r, f r = 1) := by
  revert f
  decide

theorem exists_signs (sbits : Fin 8) : ∃ f : Fin 3 → ℤˣ, (∀ r, signOf sbits r = f r) ∧
    (minuses sbits % 2 = 0 ↔ ∏ r, f r = 1) := by
  revert sbits
  decide

section Filters
variable {p : Fin 6} {sbits : Fin 8}

theorem kept_iff (hp : s.parity = if perm_even p then 1 else -1)
    (hsign : ∀ r, signOf sbits r = s.sign r) (hminus : minuses sbits % 2 = 0 ↔ s.flips = 1) :
    kept n p sbits = true ↔ Selected n s := by
  have hdet : (if perm_even p then 1 else -1) * signOf sbits 0 * signOf sbits 1 * signOf sbits 2 =
      ((s.parity * s.flips : ℤˣ) : ℤ) := by
    rw [hp, hsign, hsign, hsign, SignedPerm.flips, Fin.prod_univ_three]
    cases perm_even p <;> simp [mul_assoc]
  have heven : perm_even p = true ↔ s.parity = 1 := by
    cases h : perm_even p <;> simp [hp, h]
  rw [kept, hdet, Selected]
  simp only [decide_eq_true_eq, Units.val_eq_one, ← hminus, ← heven]
  constructor
  · rintro ⟨hdet, hfilter⟩
    refine ⟨hdet, fun hn => ?_⟩
    by_contra hneg
    refine hfilter ⟨hn, ?_⟩
    cases h : perm_even p
    · exact .inl rfl
    · exact .inr fun hm => hneg ⟨h, hm⟩
  · rintro ⟨hdet, hfilter⟩
    refine ⟨hdet, ?_⟩
    rintro ⟨hn, hodd | hm⟩
    · simp [(hfilter hn).1] at hodd
    · exact hm (hfilter hn).2

theorem signedMatrix_eq (hp : ∀ r, perms p r = s.perm r) (hsign : ∀ r, signOf sbits r = s.sign r) :
    signedMatrix p sbits = s.toMatrix := by
  funext r c
  rw [signedMatrix, SignedPerm.toMatrix, hp, hsign]

end Filters

theorem mem_rotation_group_iff : R ∈ rotation_group n ↔ ∃ s, Selected n s ∧ s.toMatrix = R := by
  simp only [rotation_group, List.mem_flatMap, List.mem_filterMap, List.mem_finRange, true_and,
    Option.ite_none_right_eq_some, Option.some.injEq]
  constructor
  · rintro ⟨p, sbits, hkept, rfl⟩
    obtain ⟨σ, hσ, hparity⟩ := exists_perm p
    obtain ⟨f, hf, hminus⟩ := exists_signs sbits
    have hs := (kept_iff (s := ⟨σ, f⟩) hparity hf hminus).mp hkept
    exact ⟨⟨σ, f⟩, hs, (signedMatrix_eq hσ hf).symm⟩
  · rintro ⟨s, hs, rfl⟩
    obtain ⟨p, hσ, hparity⟩ := exists_row s.perm
    obtain ⟨sbits, hf, hminus⟩ := exists_bits s.sign
    exact ⟨p, sbits, (kept_iff hparity hf hminus).mpr hs, signedMatrix_eq hσ hf⟩

theorem signOf_ne_zero (sbits : Fin 8) (r : Fin 3) : signOf sbits r ≠ 0 := by
  revert sbits r
  decide

theorem perms_injective : Function.Injective perms := by
  decide

theorem signOf_injective : Function.Injective signOf := by
  decide

/-- A matrix tells its row of the table and its bits. -/
theorem signedMatrix_inj {p q : Fin 6} {b d : Fin 8} (h : signedMatrix p b = signedMatrix q d) :
    p = q ∧ b = d := by
  have hrow : ∀ r, perms q r = perms p r ∧ signOf b r = signOf d r := by
    intro r
    have hentry := congrFun (congrFun h r) (perms p r)
    simp only [signedMatrix, if_true] at hentry
    by_cases hperm : perms q r = perms p r
    · rw [if_pos hperm] at hentry
      exact ⟨hperm, hentry⟩
    · rw [if_neg hperm] at hentry
      exact absurd hentry (signOf_ne_zero b r)
  constructor
  · exact perms_injective (funext fun r => (hrow r).1.symm)
  · exact signOf_injective (funext fun r => (hrow r).2)

theorem nodup_rotation_group (n : ℤ) : (rotation_group n).Nodup := by
  refine List.nodup_flatMap.mpr ⟨fun p _ => ?_, ?_⟩
  · refine (List.nodup_finRange 8).filterMap ?_
    intro b d R hb hd
    rw [Option.mem_def, Option.ite_none_right_eq_some, Option.some.injEq] at hb hd
    exact (signedMatrix_inj (hb.2.trans hd.2.symm)).2
  · refine (List.nodup_finRange 6).imp ?_
    intro p q hpq R hRp hRq
    obtain ⟨b, -, hb⟩ := List.mem_filterMap.mp hRp
    obtain ⟨d, -, hd⟩ := List.mem_filterMap.mp hRq
    rw [Option.ite_none_right_eq_some, Option.some.injEq] at hb hd
    exact hpq (signedMatrix_inj (hb.2.trans hd.2.symm)).1

theorem rotation_group_isGroupList (n : ℤ) : IsGroupList (rotation_group n) where
  nodup := nodup_rotation_group n
  mul_mem := by
    intro R hR Q hQ
    obtain ⟨s, hs, rfl⟩ := mem_rotation_group_iff.mp hR
    obtain ⟨t, ht, rfl⟩ := mem_rotation_group_iff.mp hQ
    exact mem_rotation_group_iff.mpr ⟨s.mul t, hs.mul ht, s.toMatrix_mul t⟩
  cancel := by
    intro Q hQ
    obtain ⟨t, -, rfl⟩ := mem_rotation_group_iff.mp hQ
    exact ⟨t.toMatrix.transpose, t.toMatrix_mul_transpose⟩

theorem mul_transpose_of_mem (h : Q ∈ rotation_group n) : Q * Q.transpose = 1 := by
  obtain ⟨t, -, rfl⟩ := mem_rotation_group_iff.mp h
  exact t.toMatrix_mul_transpose

theorem rotation_group_eq (n : ℤ) :
    rotation_group n = if n < 24 then rotation_group 12 else rotation_group 24 := by
  by_cases h : n < 24
  · simp [rotation_group, kept, h]
  · simp [rotation_group, kept, h]

/-- The tetrahedral or the octahedral orbit. -/
theorem length_rotation_group (n : ℤ) : (rotation_group n).length = if n < 24 then 12 else 24 := by
  rw [rotation_group_eq]
  by_cases h : n < 24
  · rw [if_pos h, if_pos h]
    decide
  · rw [if_neg h, if_neg h]
    decide

theorem rotation_group_ne_nil (n : ℤ) : rotation_group n ≠ [] := by
  intro hnil
  have hlength := length_rotation_group n
  rw [hnil, List.length_nil] at hlength
  split at hlength <;> omega

end Rgpot.Metatomic
