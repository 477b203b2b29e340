import Rgpot.ZBL.ZBLPot

/-! Whatever tables a call finds cached, its kernel uses the coefficients of its two species. -/
namespace Rgpot.ZBLPot
open RowMajor ZBL

section Entries
variable {α : Type} {n : ℕ}

theorem index_injective {a b c d : ℕ} (hb : b < n) (hd : d < n) (h : a * n + b = c * n + d) :
    a = c ∧ b = d := by
  have hn : 0 < n := by omega
  have hrow : (a * n + b) / n = a := by
    rw [Nat.mul_comm, Nat.mul_add_div hn, Nat.div_eq_of_lt hb, Nat.add_zero]
  have hrow' : (c * n + d) / n = c := by
    rw [Nat.mul_comm, Nat.mul_add_div hn, Nat.div_eq_of_lt hd, Nat.add_zero]
  have hac : a = c := by rw [← hrow, h, hrow']
  subst hac
  exact ⟨rfl, by omega⟩

theorem mem_upperPairs {i j : ℕ} : (i, j) ∈ upperPairs n ↔ i ≤ j ∧ j < n := by
  simp only [upperPairs, List.mem_flatMap, List.mem_range, List.mem_map, List.mem_range'_1,
    Prod.mk.injEq]
  constructor
  · rintro ⟨k, hk, l, ⟨hl, hl'⟩, rfl, rfl⟩
    omega
  · rintro ⟨hij, hj⟩
    exact ⟨i, by omega, j, ⟨hij, by omega⟩, rfl, rfl⟩

theorem length_setPair (f : ℕ → ℕ → α) (t : List α) (ij : ℕ × ℕ) :
    (setPair n f t ij).length = t.length := by
  rw [setPair, List.length_set, List.length_set]

/-- A pair's entry and its mirror image change. -/
theorem getElem?_setPair (f : ℕ → ℕ → α) {t : List α} (ht : t.length = n * n) {i j a b : ℕ}
    (hi : i < n) (hj : j < n) (ha : a < n) (hb : b < n) :
    (setPair n f t (i, j))[a * n + b]? =
      if (a = i ∧ b = j) ∨ (a = j ∧ b = i) then some (f i j) else t[a * n + b]? := by
  have hfirst : i * n + j < t.length := ht ▸ index_lt hi hj
  have hsecond : j * n + i < t.length := ht ▸ index_lt hj hi
  rw [setPair, List.getElem?_set, List.getElem?_set, List.length_set, if_pos hsecond, if_pos hfirst]
  by_cases hmirror : j * n + i = a * n + b
  · obtain ⟨rfl, rfl⟩ := index_injective hi hb hmirror
    rw [if_pos hmirror, if_pos (Or.inr ⟨rfl, rfl⟩)]
  rw [if_neg hmirror]
  by_cases hentry : i * n + j = a * n + b
  · obtain ⟨rfl, rfl⟩ := index_injective hj hb hentry
    rw [if_pos hentry, if_pos (Or.inl ⟨rfl, rfl⟩)]
  rw [if_neg hentry, if_neg]
  rintro (⟨rfl, rfl⟩ | ⟨rfl, rfl⟩)
  · exact hentry rfl
  · exact hmirror rfl

/-- The loops fill in every pair of indices. -/
theorem getElem?_filled (f : ℕ → ℕ → α) (x : α) (done : List (ℕ × ℕ))
    (hdone : ∀ ij ∈ done, ij.1 ≤ ij.2 ∧ ij.2 < n) :
    let t := done.foldl (setPair n f) (List.replicate (n * n) x)
    t.length = n * n ∧ ∀ a b, a < n → b < n →
      t[a * n + b]? = some (if (min a b, max a b) ∈ done then f (min a b) (max a b) else x) := by
  induction done using List.reverseRecOn with
  | nil =>
    refine ⟨List.length_replicate, ?_⟩
    intro a b ha hb
    rw [if_neg List.not_mem_nil, List.foldl_nil, List.getElem?_replicate, if_pos (index_lt ha hb)]
  | append_singleton done ij ih =>
    obtain ⟨i, j⟩ := ij
    obtain ⟨hlength, hentries⟩ := ih fun x hx => hdone x (List.mem_append_left _ hx)
    obtain ⟨hij, hj⟩ := hdone (i, j) (List.mem_append_right _ List.mem_cons_self)
    simp only at hij hj
    rw [List.foldl_append, List.foldl_cons, List.foldl_nil]
    refine ⟨(length_setPair f _ _).trans hlength, ?_⟩
    intro a b ha hb
    rw [getElem?_setPair f hlength (by omega) hj ha hb]
    by_cases hpair : (a = i ∧ b = j) ∨ (a = j ∧ b = i)
    · have hends : min a b = i ∧ max a b = j := by omega
      rw [if_pos hpair, hends.1, hends.2, if_pos (List.mem_append_right _ List.mem_cons_self)]
    · have hother : (min a b, max a b) ≠ (i, j) := by
        intro he
        obtain ⟨hmin, hmax⟩ := Prod.mk.inj he
        omega
      rw [if_neg hpair, hentries a b ha hb]
      simp only [List.mem_append, List.mem_singleton, hother, or_false]

end Entries

section Species

theorem mem_destutter' {l : List ℤ} {a x : ℤ} (h : x ∈ a :: l) : x ∈ l.destutter' (· ≠ ·) a := by
  induction l generalizing a with
  | nil => exact h
  | cons b l ih =>
    by_cases hab : a ≠ b
    · rw [List.destutter'_cons_pos _ hab]
      rcases List.mem_cons.mp h with rfl | hx
      · exact List.mem_cons_self
      · exact List.mem_cons_of_mem _ (ih hx)
    · rw [List.destutter'_cons_neg _ hab]
      rw [not_not] at hab
      subst hab
      exact ih (List.mem_of_mem_cons_of_mem h List.mem_cons_self)

theorem mem_uniqueSpecies {atomicNrs : List ℤ} {z : ℤ} (h : z ∈ atomicNrs) :
    z ∈ uniqueSpecies atomicNrs := by
  rw [uniqueSpecies]
  have hsorted : z ∈ atomicNrs.mergeSort fun a b => a ≤ b := List.mem_mergeSort.mpr h
  cases hcase : atomicNrs.mergeSort fun a b => a ≤ b with
  | nil =>
    rw [hcase] at hsorted
    cases hsorted
  | cons a l =>
    rw [hcase] at hsorted
    rw [List.destutter_cons']
    exact mem_destutter' hsorted

theorem uniqueSpecies_ascending (atomicNrs : List ℤ) : (uniqueSpecies atomicNrs).Pairwise (· ≤ ·) := by
  have hsorted : (atomicNrs.mergeSort fun a b => a ≤ b).Pairwise (· ≤ ·) := by
    have htrans : ∀ a b c : ℤ, decide (a ≤ b) = true → decide (b ≤ c) = true → decide (a ≤ c) = true := by
      intro a b c hab hbc
      exact decide_eq_true ((of_decide_eq_true hab).trans (of_decide_eq_true hbc))
    have htotal : ∀ a b : ℤ, (decide (a ≤ b) || decide (b ≤ a)) = true := by
      intro a b
      simpa using le_total a b
    exact (List.pairwise_mergeSort htrans htotal atomicNrs).imp fun h => of_decide_eq_true h
  exact hsorted.sublist (List.destutter_sublist _ _)

/-- The search ends at the number it looks for. -/
theorem getElem?_lowerBound {z : List ℤ} (hz : z.Pairwise (· ≤ ·)) {v : ℤ} (hv : v ∈ z) :
    z[lowerBound z v]? = some v := by
  have hfound : lowerBound z v < z.length :=
    List.findIdx_lt_length_of_exists ⟨v, hv, by simp⟩
  have hge : v ≤ z[lowerBound z v] := by
    have hfirst := List.findIdx_getElem (p := fun x : ℤ => decide (¬ x < v)) (w := hfound)
    exact not_lt.mp (of_decide_eq_true hfirst)
  obtain ⟨k, hk, hget⟩ := List.mem_iff_getElem.mp hv
  have hle : lowerBound z v ≤ k := by
    by_contra hlt
    have hnot := List.not_of_lt_findIdx (show k < z.findIdx fun x => ¬ x < v from not_le.mp hlt)
    simp [hget] at hnot
  have hvalue : z[lowerBound z v] ≤ z[k] := by
    rcases Nat.eq_or_lt_of_le hle with heq | hlt
    · simp only [heq, le_refl]
    · exact List.pairwise_iff_getElem.mp hz _ k hfound hk hlt
  rw [hget] at hvalue
  rw [List.getElem?_eq_getElem hfound]
  exact congrArg some (le_antisymm hvalue hge)

end Species

variable {K : Type} [Field K] [LinearOrder K] [Elementary K] (pot : ZBLPot K)

omit [LinearOrder K] in
theorem pairCoeffs_comm (zi zj : K) : pot.pairCoeffs zi zj = pot.pairCoeffs zj zi := by
  unfold pairCoeffs
  rw [add_comm (Elementary.pow zi kPZBL), mul_comm zi zj]

omit [LinearOrder K] in
theorem tablesFor_z (m_tables : Option pot.Built) (atomicNrs : List ℤ) :
    (pot.tablesFor m_tables atomicNrs).1.z = uniqueSpecies atomicNrs := by
  unfold tablesFor
  split
  · split
    · assumption
    · rfl
  · rfl

omit [LinearOrder K] in
/-- The entry of two species. -/
theorem getElem?_pairs (t : pot.Built) {a b : ℕ} {za zb : ℤ} (ha : t.1.z[a]? = some za)
    (hb : t.1.z[b]? = some zb) :
    t.1.pairs[a * t.1.z.length + b]? = some (pot.pairCoeffs (za : K) (zb : K)) := by
  have hpairs : t.1.pairs = (pot.buildTables t.1.z).pairs := congrArg ZblTables.pairs t.2
  have ha' := (List.getElem?_eq_some_iff.mp ha).1
  have hb' := (List.getElem?_eq_some_iff.mp hb).1
  rw [hpairs, buildTables]
  obtain ⟨-, hentries⟩ := getElem?_filled
    (fun i j => pot.pairCoeffs ((t.1.z.getD i 0 : ℤ) : K) ((t.1.z.getD j 0 : ℤ) : K))
    ZblPairCoeffs.zero (upperPairs t.1.z.length) fun ij hij => mem_upperPairs.mp hij
  rw [hentries a b ha' hb', if_pos (mem_upperPairs.mpr ⟨by omega, by omega⟩)]
  have hza : t.1.z.getD a 0 = za := by rw [List.getD_eq_getElem?_getD, ha, Option.getD_some]
  have hzb : t.1.z.getD b 0 = zb := by rw [List.getD_eq_getElem?_getD, hb, Option.getD_some]
  rcases le_total a b with hab | hab
  · rw [min_eq_left hab, max_eq_right hab, hza, hzb]
  · rw [min_eq_right hab, max_eq_left hab, hza, hzb, pairCoeffs_comm]

omit [LinearOrder K] in
theorem typeIdx_species (m_tables : Option pot.Built) {atomicNrs : List ℤ} {i : ℕ}
    (hi : i < atomicNrs.length) :
    let tables := (pot.tablesFor m_tables atomicNrs).1
    tables.z[(typeIdx tables atomicNrs).getD i 0]? = some atomicNrs[i] := by
  have hz := pot.tablesFor_z m_tables atomicNrs
  intro tables
  have htype : (typeIdx tables atomicNrs).getD i 0 = lowerBound tables.z atomicNrs[i] := by
    rw [typeIdx, List.getD_eq_getElem _ _ (by rwa [List.length_map]), List.getElem_map]
  rw [htype]
  refine getElem?_lowerBound ?_ ?_
  · rw [hz]
    exact uniqueSpecies_ascending atomicNrs
  · rw [hz]
    exact mem_uniqueSpecies (List.getElem_mem hi)

/-- Every pair of a call is evaluated with the coefficients of its own species. -/
theorem kernel_eq [OutwardRoot K] (m_tables : Option pot.Built) {atomicNrs : List ℤ} {i j : ℕ}
    (hi : i < atomicNrs.length) (hj : j < atomicNrs.length) (r2 : K) :
    let tables := (pot.tablesFor m_tables atomicNrs).1
    pot.kernel tables (typeIdx tables atomicNrs) i j r2 =
      pot.pairTerm (pot.pairCoeffs (atomicNrs[i] : K) (atomicNrs[j] : K)) r2 := by
  intro tables
  have hentry := pot.getElem?_pairs (pot.tablesFor m_tables atomicNrs) (pot.typeIdx_species m_tables hi)
    (pot.typeIdx_species m_tables hj)
  rw [kernel, List.getD_eq_getElem?_getD, hentry, Option.getD_some]

end Rgpot.ZBLPot
