import Rgpot.Lib.Numerals

/-! Arrays filled piece by piece: a running offset makes the pieces a concatenation. -/
namespace Fill

variable {α β : Type}

/-- `t[base + i] = f i` for `i = 0, …, count - 1`. -/
def fill (t : ℕ → α) (base count : ℕ) (f : ℕ → α) : ℕ → α :=
  (List.range count).foldl (fun t i => Function.update t (base + i) (f i)) t

theorem fill_apply (t : ℕ → α) (base count : ℕ) (f : ℕ → α) (k : ℕ) :
    fill t base count f k = if base ≤ k ∧ k < base + count then f (k - base) else t k := by
  induction count with
  | zero =>
    rw [if_neg (by omega)]
    rfl
  | succ count ih =>
    have hsucc : fill t base (count + 1) f =
        Function.update (fill t base count f) (base + count) (f count) := by
      rw [fill, List.range_succ, List.foldl_append]
      rfl
    rw [hsucc]
    by_cases hk : k = base + count
    · subst hk
      rw [Function.update_self, if_pos (by omega), Nat.add_sub_cancel_left]
    · rw [Function.update_of_ne hk, ih]
      by_cases hin : base ≤ k ∧ k < base + count
      · rw [if_pos hin, if_pos (by omega)]
      · rw [if_neg hin, if_neg (by omega)]

/-- The array's first `m` elements. -/
def contents (t : ℕ → α) (m : ℕ) : List α := (List.range m).map t

/-- A piece that is filled in behind the contents is appended to them. -/
theorem contents_fill (t : ℕ → α) (m count : ℕ) (f : ℕ → α) :
    contents (fill t m count f) (m + count) = contents t m ++ (List.range count).map f := by
  rw [contents, List.range_add, List.map_append, List.map_map, contents]
  congr 1
  · apply List.map_congr_left
    intro k hk
    have := List.mem_range.mp hk
    rw [fill_apply, if_neg (by omega)]
  · apply List.map_congr_left
    intro k hk
    have := List.mem_range.mp hk
    rw [Function.comp_apply, fill_apply, if_pos (by omega), Nat.add_sub_cancel_left]

theorem contents_update (t : ℕ → α) (m : ℕ) (x : α) :
    contents (Function.update t m x) (m + 1) = contents t m ++ [x] := by
  have h := contents_fill t m 1 fun _ => x
  rwa [fill, List.range_one, List.foldl_cons, List.foldl_nil, Nat.add_zero] at h

theorem map_range_getD (l : List α) (d : α) : (List.range l.length).map (fun i => l.getD i d) = l := by
  apply List.ext_getElem
  · rw [List.length_map, List.length_range]
  · intro i h _
    rw [List.length_map, List.length_range] at h
    rw [List.getElem_map, List.getElem_range, List.getD_eq_getElem _ _ h]

/-- Piece `b` of a concatenation of pieces of one length. -/
theorem getD_flatMap {f : α → List β} {len b i : ℕ} {l : List α} (h : ∀ x ∈ l, (f x).length = len)
    (hb : b < l.length) (hi : i < len) (d : β) :
    (l.flatMap f).getD (b * len + i) d = (f l[b]).getD i d := by
  induction l generalizing b with
  | nil => exact absurd hb (Nat.not_lt_zero b)
  | cons x l ih =>
    have hx := h x List.mem_cons_self
    rw [List.flatMap_cons]
    cases b with
    | zero =>
      rw [Nat.zero_mul, Nat.zero_add, List.getD_append _ _ _ _ (by omega)]
      rfl
    | succ b =>
      rw [List.getD_append_right _ _ _ _ (by rw [hx, Nat.succ_mul]; omega), hx, List.getElem_cons_succ,
        ← ih (fun y hy => h y (List.mem_cons_of_mem x hy)) (Nat.lt_of_succ_lt_succ hb)]
      congr 1
      rw [Nat.succ_mul]
      omega

end Fill
