import Rgpot.Lib.Numerals

/-! Sorting routines known by their contract only: some permutation, ordered by the comparator. -/

/-- A routine for one comparator. It need not be stable. -/
structure SortRoutine {α : Type} (less : α → α → Bool) where
  sort : List α → List α
  perm : ∀ l, (sort l).Perm l
  ordered : ∀ l, (sort l).Pairwise fun a b => less b a = false

namespace SortRoutine

section Keys
variable {α κ : Type} [LinearOrder κ] {less : α → α → Bool} {key : α → κ}

theorem mergeSort_ordered (key : α → κ) (l : List α) :
    (l.mergeSort fun a b => key a ≤ key b).Pairwise fun a b => key a ≤ key b := by
  refine (List.pairwise_mergeSort ?_ ?_ l).imp fun hab => of_decide_eq_true hab
  · intro a b c hab hbc
    rw [decide_eq_true_eq] at hab hbc ⊢
    exact hab.trans hbc
  · intro a b
    simpa using le_total (key a) (key b)

/-- Sorting by a key that refines the comparator. -/
def ofKey (key : α → κ) (h : ∀ a b, less a b = true → key a < key b) : SortRoutine less where
  sort l := l.mergeSort fun a b => key a ≤ key b
  perm l := List.mergeSort_perm l _
  ordered l := by
    refine (mergeSort_ordered key l).imp ?_
    intro a b hab
    rw [← Bool.not_eq_true]
    intro hba
    exact absurd hab (not_le.mpr (h b a hba))

theorem ofKey_ordered (h : ∀ a b, less a b = true → key a < key b) (l : List α) :
    ((ofKey key h).sort l).Pairwise fun a b => key a ≤ key b :=
  mergeSort_ordered key l

theorem key_ordered (r : SortRoutine less) (h : ∀ a b, less a b = true ↔ key a < key b)
    (l : List α) : (r.sort l).Pairwise fun a b => key a ≤ key b := by
  refine (r.ordered l).imp ?_
  intro a b hba
  rw [← not_lt, ← h b a, hba]
  exact Bool.false_ne_true

end Keys
end SortRoutine

/-! Reordered lists that are sorted by one key. -/
namespace SortedByKey

variable {α β κ : Type} [LinearOrder κ] {key : α → κ} {l l' : List α}

theorem map_key_eq (hp : l.Perm l') (h : l.Pairwise fun a b => key a ≤ key b)
    (h' : l'.Pairwise fun a b => key a ≤ key b) : l.map key = l'.map key := by
  refine List.Perm.eq_of_pairwise ?_ (List.pairwise_map.mpr h) (List.pairwise_map.mpr h')
    (hp.map key)
  exact fun a b _ _ hab hba => le_antisymm hab hba

/-- The items before the smaller ones are all counted below `v`. -/
theorem countP_lt_le_index {i : ℕ} {a : α} (h : l.Pairwise fun a b => key a ≤ key b)
    (hi : l[i]? = some a) : l.countP (fun x => key x < key a) ≤ i := by
  induction l generalizing i with
  | nil => simp at hi
  | cons x l ih =>
    obtain ⟨hx, hl⟩ := List.pairwise_cons.mp h
    cases i with
    | zero =>
      rw [List.getElem?_cons_zero, Option.some.injEq] at hi
      subst hi
      refine (List.countP_eq_zero.mpr ?_).le
      intro y hy
      rw [decide_eq_true_eq, not_lt]
      rcases List.mem_cons.mp hy with rfl | hy
      · exact le_rfl
      · exact hx y hy
    | succ i =>
      rw [List.getElem?_cons_succ] at hi
      rw [List.countP_cons]
      have := ih hl hi
      split <;> omega

/-- The first place of a key is the count of the smaller ones. -/
theorem exists_getElem_countP {a : α} (h : l.Pairwise fun a b => key a ≤ key b) (ha : a ∈ l) :
    ∃ b, l[l.countP fun x => key x < key a]? = some b ∧ key b = key a := by
  induction l with
  | nil => simp at ha
  | cons x l ih =>
    obtain ⟨hx, hl⟩ := List.pairwise_cons.mp h
    by_cases hlt : key x < key a
    · have hmem : a ∈ l := by
        rcases List.mem_cons.mp ha with rfl | hmem
        · exact absurd hlt (lt_irrefl _)
        · exact hmem
      obtain ⟨b, hb, hkey⟩ := ih hl hmem
      refine ⟨b, ?_, hkey⟩
      rw [List.countP_cons, if_pos (decide_eq_true hlt), List.getElem?_cons_succ]
      exact hb
    · have hnone : (x :: l).countP (fun y => key y < key a) = 0 := by
        apply List.countP_eq_zero.mpr
        intro y hy
        rw [decide_eq_true_eq, not_lt]
        rcases List.mem_cons.mp hy with rfl | hy
        · exact not_lt.mp hlt
        · exact (not_lt.mp hlt).trans (hx y hy)
      refine ⟨x, ?_, ?_⟩
      · rw [hnone, List.getElem?_cons_zero]
      · rcases List.mem_cons.mp ha with rfl | hmem
        · rfl
        · exact le_antisymm (hx a hmem) (not_lt.mp hlt)

/-- The first `m` places agree under `g` when ties that reach them do. -/
theorem take_map_eq {g : α → β} {m : ℕ} (hp : l.Perm l')
    (h : l.Pairwise fun a b => key a ≤ key b) (h' : l'.Pairwise fun a b => key a ≤ key b)
    (hties : ∀ a ∈ l, ∀ b ∈ l, key a = key b → (l.countP fun x => key x < key a) < m → g a = g b) :
    (l.take m).map g = (l'.take m).map g := by
  have hkeys := map_key_eq hp h h'
  apply List.ext_getElem?
  intro i
  rw [List.getElem?_map, List.getElem?_map]
  rcases Nat.lt_or_ge i m with hi | hi
  · rw [List.getElem?_take_of_lt hi, List.getElem?_take_of_lt hi]
    have hkey := congrArg (fun k => k[i]?) hkeys
    simp only [List.getElem?_map] at hkey
    cases ha : l[i]? with
    | none =>
      rw [ha] at hkey
      cases hb : l'[i]? with
      | none => rfl
      | some b => simp [hb] at hkey
    | some a =>
      rw [ha] at hkey
      cases hb : l'[i]? with
      | none => simp [hb] at hkey
      | some b =>
        rw [hb, Option.map_some, Option.map_some, Option.some.injEq] at hkey
        have hbefore := countP_lt_le_index h ha
        have hmem := hp.mem_iff.mpr (List.mem_of_getElem? hb)
        rw [Option.map_some, Option.map_some,
          hties a (List.mem_of_getElem? ha) b hmem hkey (by omega)]
  · rw [List.getElem?_take_eq_none hi, List.getElem?_take_eq_none hi]

end SortedByKey
