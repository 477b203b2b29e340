import Rgpot.Lib.Numerals

/-! What an exclusive-or of hash values can and cannot tell apart. -/
namespace XorHash

instance xorCommutative : Std.Commutative (α := ℕ) (· ^^^ ·) := ⟨Nat.xor_comm⟩
instance xorAssociative : Std.Associative (α := ℕ) (· ^^^ ·) := ⟨Nat.xor_assoc⟩

/-- The exclusive-or of a list of hash values. -/
def xorAll (l : List ℕ) : ℕ := l.foldr (· ^^^ ·) 0

variable {α : Type} [DecidableEq α]

/-- The elements that occur an odd number of times. -/
def oddPart (l : List α) : Finset α := l.toFinset.filter fun a => Odd (l.count a)

/-- The exclusive-or of the values of `H` over a finite set. -/
def xorOn (H : α → ℕ) (s : Finset α) : ℕ := s.fold (· ^^^ ·) 0 H

theorem xorAll_append (l m : List ℕ) : xorAll (l ++ m) = xorAll l ^^^ xorAll m := by
  induction l with
  | nil => simp [xorAll]
  | cons a l ih =>
    change a ^^^ xorAll (l ++ m) = (a ^^^ xorAll l) ^^^ xorAll m
    rw [ih, Nat.xor_assoc]

theorem mem_oddPart {l : List α} {a : α} : a ∈ oddPart l ↔ Odd (l.count a) := by
  simp only [oddPart, Finset.mem_filter, List.mem_toFinset, and_iff_right_iff_imp]
  intro h
  exact List.count_pos_iff.mp h.pos

theorem oddPart_cons (a : α) (l : List α) :
    oddPart (a :: l) = if a ∈ oddPart l then (oddPart l).erase a else insert a (oddPart l) := by
  ext b
  by_cases hb : b = a
  · subst hb
    have hcount : (b :: l).count b = l.count b + 1 := List.count_cons_self
    by_cases hm : b ∈ oddPart l
    · have hodd := mem_oddPart.mp hm
      simp [mem_oddPart, hcount, hm, Nat.odd_add_one, hodd]
    · have heven := Nat.not_odd_iff_even.mp fun h => hm (mem_oddPart.mpr h)
      simp [mem_oddPart, hcount, hm, heven]
  · have hcount : (a :: l).count b = l.count b := List.count_cons_of_ne (Ne.symm hb)
    by_cases hm : a ∈ oddPart l <;> simp [mem_oddPart, hcount, hm, hb]

theorem xorOn_insert (H : α → ℕ) {s : Finset α} {a : α} (h : a ∉ s) :
    xorOn H (insert a s) = H a ^^^ xorOn H s := Finset.fold_insert h

theorem xorOn_erase (H : α → ℕ) {s : Finset α} {a : α} (h : a ∈ s) :
    xorOn H (s.erase a) = H a ^^^ xorOn H s := by
  have hs := xorOn_insert H (Finset.notMem_erase a s)
  rw [Finset.insert_erase h] at hs
  rw [hs, ← Nat.xor_assoc, Nat.xor_self, Nat.zero_xor]

/-- Elements that occur twice cancel, so only the odd part contributes. -/
theorem xorAll_map (H : α → ℕ) (l : List α) : xorAll (l.map H) = xorOn H (oddPart l) := by
  induction l with
  | nil => rfl
  | cons a l ih =>
    change H a ^^^ xorAll (l.map H) = _
    rw [ih, oddPart_cons]
    by_cases hm : a ∈ oddPart l
    · rw [if_pos hm, xorOn_erase H hm]
    · rw [if_neg hm, xorOn_insert H hm]

theorem even_card_oddPart (l : List α) : Even (oddPart l).card ↔ Even l.length := by
  induction l with
  | nil => simp [oddPart]
  | cons a l ih =>
    rw [oddPart_cons, List.length_cons, Nat.even_add_one, ← ih]
    by_cases hm : a ∈ oddPart l
    · have hpos := Finset.card_pos.mpr ⟨a, hm⟩
      rw [if_pos hm, Finset.card_erase_of_mem hm, Nat.even_sub hpos]
      simp
    · rw [if_neg hm, Finset.card_insert_of_notMem hm, Nat.even_add_one]

section Powers
variable {g : α → ℕ}

/-- Distinct powers of two never cancel: the bits of their exclusive-or name the elements. -/
theorem testBit_xorOn_pow (hg : Function.Injective g) (s : Finset α) (i : ℕ) :
    (xorOn (fun a => 2 ^ g a) s).testBit i = true ↔ ∃ a ∈ s, g a = i := by
  induction s using Finset.induction_on with
  | empty => simp [xorOn]
  | insert a s ha ih =>
    rw [xorOn_insert _ ha, Nat.testBit_xor, Nat.testBit_two_pow]
    by_cases hi : g a = i
    · have hs : ¬ (xorOn (fun a => 2 ^ g a) s).testBit i = true := by
        rw [ih]
        rintro ⟨b, hb, hbi⟩
        exact ha (hg (hi.trans hbi.symm) ▸ hb)
      simp [hi, hs]
    · simp only [hi, decide_false, Bool.false_bne, ih, Finset.exists_mem_insert, false_or]

/-- Powers of two, except that one element of the set takes the exclusive-or of the others. -/
def tuned (g : α → ℕ) (s : Finset α) (a x : α) : ℕ :=
  if x = a then xorOn (fun b => 2 ^ g b) (s.erase a) else 2 ^ g x

theorem xorOn_pow_ne_pow (hg : Function.Injective g) {s : Finset α} (h : 2 ≤ s.card) (i : ℕ) :
    xorOn (fun b => 2 ^ g b) s ≠ 2 ^ i := by
  intro heq
  obtain ⟨u, hu, v, hv, huv⟩ := Finset.one_lt_card.mp h
  have hbit : ∀ w ∈ s, g w = i := by
    intro w hw
    have hset := (testBit_xorOn_pow hg s (g w)).mpr ⟨w, hw, rfl⟩
    rw [heq, Nat.testBit_two_pow] at hset
    exact (of_decide_eq_true hset).symm
  exact huv (hg ((hbit u hu).trans (hbit v hv).symm))

theorem tuned_injective (hg : Function.Injective g) {s : Finset α} {a : α} (ha : a ∈ s)
    (h : 3 ≤ s.card) : Function.Injective (tuned g s a) := by
  have hrest : 2 ≤ (s.erase a).card := by
    rw [Finset.card_erase_of_mem ha]
    omega
  intro x y hxy
  unfold tuned at hxy
  split_ifs at hxy with hx hy hy
  · rw [hx, hy]
  · exact (xorOn_pow_ne_pow hg hrest _ hxy).elim
  · exact (xorOn_pow_ne_pow hg hrest _ hxy.symm).elim
  · exact hg (Nat.pow_right_injective le_rfl hxy)

theorem xorOn_tuned (g : α → ℕ) {s : Finset α} {a : α} (ha : a ∈ s) :
    xorOn (tuned g s a) s = 0 := by
  have hrest : xorOn (tuned g s a) (s.erase a) = xorOn (fun b => 2 ^ g b) (s.erase a) := by
    refine Finset.fold_congr fun b hb => ?_
    simp [tuned, Finset.ne_of_mem_erase hb]
  have hsplit := xorOn_insert (tuned g s a) (Finset.notMem_erase a s)
  rw [Finset.insert_erase ha, hrest] at hsplit
  simpa [tuned] using hsplit

end Powers

/-- An exclusive-or of an even number of hash values is nonzero for every injective hash exactly
when two elements occur an odd number of times. -/
theorem xorAll_ne_zero_iff {g : α → ℕ} (hg : Function.Injective g) {l : List α}
    (hl : Even l.length) :
    (∀ H : α → ℕ, Function.Injective H → xorAll (l.map H) ≠ 0) ↔ (oddPart l).card = 2 := by
  have heven := (even_card_oddPart l).mpr hl
  constructor
  · intro h
    by_contra hne
    rcases Finset.eq_empty_or_nonempty (oddPart l) with he | ⟨a, ha⟩
    · exact h g hg (by rw [xorAll_map, he]; rfl)
    · have hcard : 3 ≤ (oddPart l).card := by
        have := Finset.card_pos.mpr ⟨a, ha⟩
        obtain ⟨k, hk⟩ := heven
        omega
      exact h _ (tuned_injective hg ha hcard) (by rw [xorAll_map, xorOn_tuned g ha])
  · intro h H hH hzero
    obtain ⟨a, b, hab, hs⟩ := Finset.card_eq_two.mp h
    rw [xorAll_map, hs, xorOn_insert H (by simpa using hab)] at hzero
    have hb : xorOn H {b} = H b := by simp [xorOn]
    rw [hb, Nat.xor_eq_zero_iff] at hzero
    exact hab (hH hzero)

end XorHash
