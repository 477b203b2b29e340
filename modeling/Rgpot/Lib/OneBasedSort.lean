import Rgpot.Lib.CountingSort

/-! Lists in the order of a key, and counting sorts whose arrays start at one. -/
namespace CountingSort

variable {α : Type}

/-- The items of each key below `m` in turn, those of one key in their own order. -/
def byKey (f : α → ℕ) (m : ℕ) (l : List α) : List α :=
  (List.range m).flatMap fun k => l.filter fun x => f x = k

theorem byKey_succ (f : α → ℕ) (m : ℕ) (l : List α) :
    byKey f (m + 1) l = byKey f m l ++ l.filter fun x => f x = m := by
  simp [byKey, List.range_succ]

theorem byKey_map {β : Type} (g : β → α) (f : α → ℕ) (m : ℕ) (l : List β) :
    byKey f m (l.map g) = (byKey (f ∘ g) m l).map g := by
  rw [byKey, byKey, List.map_flatMap]
  congr 1
  funext k
  rw [List.filter_map]
  rfl

theorem mem_byKey {f : α → ℕ} {m : ℕ} {l : List α} {x : α} :
    x ∈ byKey f m l ↔ x ∈ l ∧ f x < m := by
  simp [byKey, and_comm]

theorem byKey_perm_filter (f : α → ℕ) (m : ℕ) (l : List α) :
    (byKey f m l).Perm (l.filter fun x => f x < m) := by
  induction m with
  | zero => simp [byKey]
  | succ m ih =>
    have hsplit := List.filter_append_perm (fun x => decide (f x < m))
      (l.filter fun x => f x < m + 1)
    simp only [List.filter_filter] at hsplit
    rw [byKey_succ]
    refine (ih.append_right _).trans (List.Perm.trans (List.Perm.of_eq ?_) hsplit)
    congr 1
    · apply List.filter_congr
      intro x _
      by_cases hx : f x < m
      · simp [hx, Nat.lt_succ_of_lt hx]
      · simp [hx]
    · apply List.filter_congr
      intro x _
      rcases Nat.lt_trichotomy (f x) m with h | h | h
      · simp [h, h.ne]
      · simp [h]
      · simp [h.ne', Nat.not_lt.mpr (show m + 1 ≤ f x from h)]

/-- With all keys below `m` the order is a reordering. -/
theorem byKey_perm {f : α → ℕ} {m : ℕ} {l : List α} (h : ∀ x ∈ l, f x < m) :
    (byKey f m l).Perm l := by
  refine (byKey_perm_filter f m l).trans (List.Perm.of_eq ?_)
  exact List.filter_eq_self.mpr fun x hx => decide_eq_true (h x hx)

/-- Items of one key keep their order: a list ordered by `R` comes out ordered by the key, then
by `R`. -/
theorem pairwise_byKey {R : α → α → Prop} (f : α → ℕ) (m : ℕ) {l : List α} (h : l.Pairwise R) :
    (byKey f m l).Pairwise fun a b => f a < f b ∨ f a = f b ∧ R a b := by
  induction m with
  | zero => simp [byKey]
  | succ m ih =>
    rw [byKey_succ, List.pairwise_append]
    refine ⟨ih, ?_, ?_⟩
    · refine (h.filter _).imp_of_mem ?_
      intro a b ha hb hab
      have hfa := of_decide_eq_true (List.mem_filter.mp ha).2
      have hfb := of_decide_eq_true (List.mem_filter.mp hb).2
      exact Or.inr ⟨hfa.trans hfb.symm, hab⟩
    · intro a ha b hb
      have hfa := (mem_byKey.mp ha).2
      have hfb := of_decide_eq_true (List.mem_filter.mp hb).2
      left
      omega

theorem byKey_ascending (f : α → ℕ) (m : ℕ) (l : List α) :
    (byKey f m l).Pairwise fun a b => f a ≤ f b := by
  have htrue : l.Pairwise fun _ _ => True := List.pairwise_of_forall fun _ _ => trivial
  refine (pairwise_byKey f m htrue).imp ?_
  rintro a b (h | ⟨h, -⟩)
  · exact h.le
  · exact h.le

theorem filter_byKey {f : α → ℕ} {m k : ℕ} (hk : k < m) (l : List α) :
    (byKey f m l).filter (fun x => f x = k) = l.filter fun x => f x = k := by
  induction m with
  | zero => omega
  | succ m ih =>
    rw [byKey_succ, List.filter_append, List.filter_filter]
    rcases Nat.lt_succ_iff_lt_or_eq.mp hk with h | rfl
    · have hnone : l.filter (fun x => decide (f x = k) && decide (f x = m)) = [] := by
        apply List.filter_eq_nil_iff.mpr
        intro x _
        simp only [Bool.and_eq_true, decide_eq_true_eq]
        omega
      rw [ih h, hnone, List.append_nil]
    · have hnone : (byKey f k l).filter (fun x => decide (f x = k)) = [] := by
        apply List.filter_eq_nil_iff.mpr
        intro x hx
        have := (mem_byKey.mp hx).2
        simp only [decide_eq_true_eq]
        omega
      rw [hnone, List.nil_append]
      simp

/-- Two orders of one list that agree under `g` agree key by key. -/
theorem map_filter_eq_of_byKey {β : Type} {f : α → ℕ} {g : α → β} {m k : ℕ} {l l' : List α}
    (hp : l.Perm l') (h : (byKey f m l).map g = (byKey f m l').map g) (hk : k < m) :
    (l.filter fun x => f x = k).map g = (l'.filter fun x => f x = k).map g := by
  induction m with
  | zero => omega
  | succ m ih =>
    rw [byKey_succ, byKey_succ, List.map_append, List.map_append] at h
    have hlength : ((l.filter fun x => f x = m).map g).length =
        ((l'.filter fun x => f x = m).map g).length := by
      rw [List.length_map, List.length_map, (hp.filter _).length_eq]
    obtain ⟨hsmaller, hlast⟩ := List.append_inj' h hlength
    rcases Nat.lt_succ_iff_lt_or_eq.mp hk with hlt | rfl
    · exact ih hsmaller hlt
    · exact hlast

/-- After the fill the places hold the items in the order of their keys. -/
theorem map_range_place {m : ℕ} (items : List (ℕ × α)) (hm : ∀ p ∈ items, p.1 < m)
    (out : ℕ → α) :
    (List.range items.length).map (place (starts (items.map Prod.fst) m) out items).2 =
      (byKey Prod.fst m items).map Prod.snd := by
  have hrows : ∀ k ≤ m, (List.range (starts (items.map Prod.fst) m k)).map
      (place (starts (items.map Prod.fst) m) out items).2 =
        (byKey Prod.fst k items).map Prod.snd := by
    intro k
    induction k with
    | zero =>
      intro _
      rw [starts_zero]
      simp [byKey]
    | succ k ih =>
      intro hk
      have hslice := slice_place items hm (show k < m from hk) out
      have hsucc := starts_succ (items.map Prod.fst) (show k < m from hk)
      rw [slice, hsucc, Nat.add_sub_cancel_left] at hslice
      rw [hsucc, byKey_succ, List.range_eq_range', ← List.range'_append_1, List.map_append,
        Nat.zero_add, hslice, ← List.range_eq_range', ih (by omega), List.map_append]
      rfl
  have hkeys : ∀ k ∈ items.map Prod.fst, k < m := by
    intro k hk
    obtain ⟨p, hp, rfl⟩ := List.mem_map.mp hk
    exact hm p hp
  have hlast := hrows m le_rfl
  rwa [starts_last hkeys, List.length_map] at hlast

/-- Places counted from one instead of zero. -/
theorem place_succ (items : List (ℕ × α)) {start start' : ℕ → ℕ} {out out' : ℕ → α}
    (hstart : ∀ p ∈ items, start' p.1 = start p.1 + 1) (hout : ∀ s, out' (s + 1) = out s) (s : ℕ) :
    (place start' out' items).2 (s + 1) = (place start out items).2 s := by
  induction items generalizing start start' out out' with
  | nil => exact hout s
  | cons p items ih =>
    have hp := hstart p List.mem_cons_self
    apply ih
    · intro q hq
      by_cases h : q.1 = p.1
      · rw [h, Function.update_self, Function.update_self, hp]
      · rw [Function.update_of_ne h, Function.update_of_ne h]
        exact hstart q (List.mem_cons_of_mem p hq)
    · intro s
      rw [hp]
      by_cases h : s = start p.1
      · rw [h, Function.update_self, Function.update_self]
      · rw [Function.update_of_ne h, Function.update_of_ne (by omega), hout]

section OneBased
variable {m : ℕ} {items : List (ℕ × α)} {start : ℕ → ℕ}

theorem range'_one (s len : ℕ) : List.range' (s + 1) len = (List.range' s len).map (· + 1) := by
  rw [Nat.add_comm s 1, ← List.map_add_range' s len 1]
  exact List.map_congr_left fun q _ => Nat.add_comm 1 q

theorem map_range'_one {out out' : ℕ → α} (h : ∀ s, out' (s + 1) = out s) (s len : ℕ) :
    (List.range' (s + 1) len).map out' = (List.range' s len).map out := by
  rw [range'_one, List.map_map]
  exact List.map_congr_left fun q _ => h q

/-- Places from one hold the items in the order of their keys. -/
theorem map_place_one (hm : ∀ p ∈ items, p.1 < m)
    (hstart : ∀ p ∈ items, start p.1 = starts (items.map Prod.fst) m p.1 + 1) (out : ℕ → α) :
    (List.range' 1 items.length).map (place start out items).2 =
      (byKey Prod.fst m items).map Prod.snd := by
  rw [← map_range_place items hm fun s => out (s + 1), List.range_eq_range']
  exact map_range'_one (place_succ items hstart fun _ => rfl) 0 _

/-- The row of key `k` holds the items of key `k` in their order. -/
theorem row_place_one {k : ℕ} (hm : ∀ p ∈ items, p.1 < m) (hk : k < m)
    (hstart : ∀ p ∈ items, start p.1 = starts (items.map Prod.fst) m p.1 + 1) (out : ℕ → α) :
    (List.range' (starts (items.map Prod.fst) m k + 1) ((items.map Prod.fst).count k)).map
      (place start out items).2 = bucket items k := by
  rw [← slice_place items hm hk fun s => out (s + 1), slice, starts_succ _ hk,
    Nat.add_sub_cancel_left]
  exact map_range'_one (place_succ items hstart fun _ => rfl) _ _

end OneBased
end CountingSort
