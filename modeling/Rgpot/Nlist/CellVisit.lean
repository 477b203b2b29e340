import Rgpot.Nlist.CellGrid

/-! The cell scan reports the pairs of the brute-force scan, in another order. -/
namespace Rgpot.Nlist
open Rounding CountingSort

section Pairs
variable {α : Type}

/-- The pairs of a list, first component earlier. -/
def selfPairs : List α → List (α × α)
  | [] => []
  | a :: l => l.map (Prod.mk a) ++ selfPairs l

theorem mem_selfPairs [Preorder α] {l : List α} (h : l.Pairwise (· < ·)) {a b : α} :
    (a, b) ∈ selfPairs l ↔ a ∈ l ∧ b ∈ l ∧ a < b := by
  induction l with
  | nil => simp [selfPairs]
  | cons x l ih =>
    rw [List.pairwise_cons] at h
    simp only [selfPairs, List.mem_append, List.mem_map, Prod.mk.injEq, ih h.2, List.mem_cons]
    constructor
    · rintro (⟨c, hc, rfl, rfl⟩ | ⟨ha, hb, hr⟩)
      · exact ⟨Or.inl rfl, Or.inr hc, h.1 c hc⟩
      · exact ⟨Or.inr ha, Or.inr hb, hr⟩
    · rintro ⟨rfl | ha, rfl | hb, hr⟩
      · exact (lt_irrefl _ hr).elim
      · exact Or.inl ⟨b, hb, rfl, rfl⟩
      · exact (lt_irrefl _ (hr.trans (h.1 a ha))).elim
      · exact Or.inr ⟨ha, hb, hr⟩

theorem selfPairs_nodup {l : List α} (h : l.Nodup) : (selfPairs l).Nodup := by
  induction l with
  | nil => exact List.nodup_nil
  | cons x l ih =>
    rw [List.nodup_cons] at h
    refine List.Nodup.append (h.2.map (Prod.mk_right_injective x)) (ih h.2) ?_
    rintro p hp hq
    obtain ⟨c, -, rfl⟩ := List.mem_map.mp hp
    have hx : ∀ (m : List α), (x, c) ∈ selfPairs m → x ∈ m := by
      intro m hm
      induction m with
      | nil => cases hm
      | cons y m ihm =>
        simp only [selfPairs, List.mem_append, List.mem_map, Prod.mk.injEq] at hm
        rcases hm with ⟨_, _, rfl, _⟩ | hm
        · exact List.mem_cons_self
        · exact List.mem_cons_of_mem _ (ihm hm)
    exact h.1 (hx l hq)

theorem flatMap_range'_pairs (out : ℕ → α) (s len : ℕ) :
    ((List.range' s len).flatMap fun p =>
      (List.range' (p + 1) (s + len - (p + 1))).map fun q => (out p, out q)) =
        selfPairs ((List.range' s len).map out) := by
  induction len generalizing s with
  | zero => rfl
  | succ len ih =>
    rw [List.range'_succ, List.flatMap_cons, List.map_cons, selfPairs, ← ih (s + 1)]
    congr 1
    · rw [List.map_map, show s + (len + 1) - (s + 1) = len by omega]
      rfl
    · rw [show s + (len + 1) = s + 1 + len by omega]

end Pairs

theorem linearIndex_lt {nc c : Fin 3 → ℕ} (h : ∀ k, c k < nc k) :
    linearIndex nc c < nc 0 * nc 1 * nc 2 := by
  have h0 := h 0
  have h1 := h 1
  have h2 := h 2
  calc linearIndex nc c < (c 2 * nc 1 + c 1) * nc 0 + nc 0 := Nat.add_lt_add_left h0 _
    _ = (c 2 * nc 1 + c 1 + 1) * nc 0 := by ring
    _ ≤ (c 2 * nc 1 + nc 1) * nc 0 := Nat.mul_le_mul_right _ (by omega)
    _ = (c 2 + 1) * nc 1 * nc 0 := by ring
    _ ≤ nc 2 * nc 1 * nc 0 := Nat.mul_le_mul_right _ (Nat.mul_le_mul_right _ h2)
    _ = nc 0 * nc 1 * nc 2 := by ring

theorem linearIndex_inj {nc c d : Fin 3 → ℕ} (hc : ∀ k, c k < nc k) (hd : ∀ k, d k < nc k)
    (h : linearIndex nc c = linearIndex nc d) : c = d := by
  have split : ∀ {m x x' y y' : ℕ}, x < m → x' < m → y * m + x = y' * m + x' → x = x' ∧ y = y' := by
    intro m x x' y y' hx hx' he
    have hm := congrArg (· % m) he
    simp only [Nat.mul_add_mod_self_right, Nat.mod_eq_of_lt hx, Nat.mod_eq_of_lt hx'] at hm
    have hq : y * m = y' * m := by omega
    exact ⟨hm, Nat.eq_of_mul_eq_mul_right (by omega) hq⟩
  obtain ⟨h0, hr⟩ := split (hc 0) (hd 0) h
  obtain ⟨h1, h2⟩ := split (hc 1) (hd 1) hr
  ext k
  fin_cases k <;> assumption

theorem mem_cells {nc c : Fin 3 → ℕ} : c ∈ cells nc ↔ ∀ k, c k < nc k := by
  simp only [cells, List.mem_flatMap, List.mem_range, List.mem_map]
  constructor
  · rintro ⟨z, hz, y, hy, x, hx, rfl⟩ k
    fin_cases k <;> simpa
  · intro h
    refine ⟨c 2, h 2, c 1, h 1, c 0, h 0, ?_⟩
    ext k
    fin_cases k <;> rfl

theorem cells_nodup (nc : Fin 3 → ℕ) : (cells nc).Nodup := by
  have component : ∀ {x y z x' y' z' : ℕ}, ![x, y, z] = ![x', y', z'] →
      x = x' ∧ y = y' ∧ z = z' := by
    intro x y z x' y' z' h
    exact ⟨congrFun h 0, congrFun h 1, congrFun h 2⟩
  rw [cells, List.nodup_flatMap]
  constructor
  · intro z _
    rw [List.nodup_flatMap]
    constructor
    · intro y _
      exact List.Nodup.map (fun x x' h => (component h).1) List.nodup_range
    · apply List.Pairwise.imp _ List.nodup_range
      intro y y' hy p hp hp'
      simp only [List.mem_map] at hp hp'
      obtain ⟨x, -, rfl⟩ := hp
      obtain ⟨x', -, h⟩ := hp'
      exact hy (component h).2.1.symm
  · apply List.Pairwise.imp _ List.nodup_range
    intro z z' hz p hp hp'
    simp only [List.mem_flatMap, List.mem_map] at hp hp'
    obtain ⟨y, -, x, -, rfl⟩ := hp
    obtain ⟨y', -, x', -, h⟩ := hp'
    exact hz (component h).2.2.symm

section Stencil

def IsOffset (o : Fin 3 → ℤ) : Prop := ∀ k, -1 ≤ o k ∧ o k ≤ 1

theorem isOffset_of_mem {o : Fin 3 → ℤ} (h : o ∈ kHalfStencil) : IsOffset o := by
  have : ∀ o ∈ kHalfStencil, ∀ k, -1 ≤ o k ∧ o k ≤ 1 := by decide
  exact this o h

theorem ne_zero_of_mem {o : Fin 3 → ℤ} (h : o ∈ kHalfStencil) : o ≠ 0 := by
  have : ∀ o ∈ kHalfStencil, o ≠ 0 := by decide
  exact this o h

theorem neg_notMem {o : Fin 3 → ℤ} (h : o ∈ kHalfStencil) : -o ∉ kHalfStencil := by
  have : ∀ o ∈ kHalfStencil, -o ∉ kHalfStencil := by decide
  exact this o h

/-- The half stencil holds one of each pair of opposite offsets. -/
theorem mem_or_neg_mem {o : Fin 3 → ℤ} (h : IsOffset o) (h0 : o ≠ 0) :
    o ∈ kHalfStencil ∨ -o ∈ kHalfStencil := by
  have all : ∀ x ∈ [(-1 : ℤ), 0, 1], ∀ y ∈ [(-1 : ℤ), 0, 1], ∀ z ∈ [(-1 : ℤ), 0, 1],
      ![x, y, z] ≠ 0 → ![x, y, z] ∈ kHalfStencil ∨ -![x, y, z] ∈ kHalfStencil := by
    decide
  have mem : ∀ k, o k ∈ [(-1 : ℤ), 0, 1] := by
    intro k
    have := h k
    simp only [List.mem_cons, List.not_mem_nil, or_false]
    omega
  have he : o = ![o 0, o 1, o 2] := by
    ext k
    fin_cases k <;> rfl
  rw [he] at h0 ⊢
  exact all _ (mem 0) _ (mem 1) _ (mem 2) h0

/-- One axis of a neighbour: the moved coordinate, wrapped at most once. -/
theorem shiftAxis_eq_some {m c c' : ℕ} {wrap : Bool} {o : ℤ} (hc : c < m)
    (ho : -1 ≤ o ∧ o ≤ 1) :
    shiftAxis m wrap c o = some c' ↔ c' < m ∧ ((c' : ℤ) = c + o ∨
      wrap = true ∧ ((c' : ℤ) = c + o + m ∨ (c' : ℤ) = c + o - m)) := by
  cases wrap with
  | false =>
    simp only [shiftAxis, Bool.false_eq_true, if_false, false_and, or_false]
    split
    · simp only [reduceCtorEq, false_iff]
      omega
    · simp only [Option.some.injEq]
      omega
  | true =>
    simp only [shiftAxis, if_true, Option.some.injEq, true_and]
    have hmod : (c + o + m) % m = if c + o < 0 then c + o + m
        else if (m : ℤ) ≤ c + o then c + o - m else c + o := by
      rw [Int.add_emod_right]
      split
      · rw [← Int.add_emod_right]
        exact Int.emod_eq_of_lt (by omega) (by omega)
      · split
        · rw [← Int.sub_emod_right]
          exact Int.emod_eq_of_lt (by omega) (by omega)
        · exact Int.emod_eq_of_lt (by omega) (by omega)
    rw [hmod]
    split_ifs <;> omega

variable {nc : Fin 3 → ℕ} {wrap : Fin 3 → Bool}

theorem shiftCell_eq_some {c d : Fin 3 → ℕ} {o : Fin 3 → ℤ} :
    shiftCell nc wrap c o = some d ↔ ∀ k, shiftAxis (nc k) (wrap k) (c k) (o k) = some (d k) := by
  simp only [shiftCell, bind, Option.bind_eq_some_iff, pure, Option.some.injEq]
  constructor
  · rintro ⟨x, hx, y, hy, z, hz, rfl⟩ k
    fin_cases k
    exacts [hx, hy, hz]
  · intro h
    refine ⟨d 0, h 0, d 1, h 1, d 2, h 2, ?_⟩
    ext k
    fin_cases k <;> rfl

theorem shiftCell_lt {c d : Fin 3 → ℕ} {o : Fin 3 → ℤ} (hc : ∀ k, c k < nc k) (ho : IsOffset o)
    (h : shiftCell nc wrap c o = some d) (k : Fin 3) : d k < nc k :=
  ((shiftAxis_eq_some (hc k) (ho k)).mp (shiftCell_eq_some.mp h k)).1

theorem shiftCell_neg {c d : Fin 3 → ℕ} {o : Fin 3 → ℤ} (hc : ∀ k, c k < nc k) (ho : IsOffset o)
    (h : shiftCell nc wrap c o = some d) : shiftCell nc wrap d (-o) = some c := by
  rw [shiftCell_eq_some]
  intro k
  have hk := (shiftAxis_eq_some (hc k) (ho k)).mp (shiftCell_eq_some.mp h k)
  have hok := ho k
  rw [shiftAxis_eq_some hk.1 (by simp only [Pi.neg_apply]; omega)]
  refine ⟨hc k, ?_⟩
  simp only [Pi.neg_apply]
  rcases hk.2 with hk | ⟨hw, hk | hk⟩
  · exact Or.inl (by omega)
  · exact Or.inr ⟨hw, Or.inr (by omega)⟩
  · exact Or.inr ⟨hw, Or.inl (by omega)⟩

/-- With three cells along each wrapped axis, a cell is reached by one offset only. -/
theorem shiftCell_offset_inj {c d : Fin 3 → ℕ} {o o' : Fin 3 → ℤ} (hc : ∀ k, c k < nc k)
    (hnc : ∀ k, wrap k = true → 3 ≤ nc k) (ho : IsOffset o) (ho' : IsOffset o')
    (h : shiftCell nc wrap c o = some d) (h' : shiftCell nc wrap c o' = some d) : o = o' := by
  ext k
  have hk := ((shiftAxis_eq_some (hc k) (ho k)).mp (shiftCell_eq_some.mp h k)).2
  have hk' := ((shiftAxis_eq_some (hc k) (ho' k)).mp (shiftCell_eq_some.mp h' k)).2
  have h1 := ho k
  have h2 := ho' k
  cases hw : wrap k with
  | false =>
    simp only [hw, Bool.false_eq_true, false_and, or_false] at hk hk'
    omega
  | true =>
    have := hnc k hw
    omega

theorem shiftCell_zero {c : Fin 3 → ℕ} (hc : ∀ k, c k < nc k) :
    shiftCell nc wrap c 0 = some c := by
  rw [shiftCell_eq_some]
  intro k
  rw [shiftAxis_eq_some (hc k) (by simp)]
  exact ⟨hc k, Or.inl (by simp)⟩

end Stencil

section Axis
variable {K : Type} [Field K] [LinearOrder K] [FloorRing K]

theorem axisCells_pos (extent rl : K) : 0 < axisCells extent rl := by
  unfold axisCells
  simp only
  split <;> omega

variable [IsStrictOrderedRing K]

/-- Two or more cells are each at least `rl` wide. -/
theorem axisCells_mul_le {extent rl : K} (hrl : 0 < rl) (h : axisCells extent rl ≠ 1) :
    axisCells extent rl * rl ≤ extent := by
  unfold axisCells at h ⊢
  simp only at h ⊢
  split at h
  · next hfit =>
    rw [if_pos hfit, ← le_div_iff₀ hrl]
    calc (((min ⌊extent / rl⌋ 1024).toNat : ℕ) : K)
        = ((min ⌊extent / rl⌋ 1024 : ℤ) : K) := by
          rw [← Int.cast_natCast, Int.toNat_of_nonneg (by omega)]
      _ ≤ (⌊extent / rl⌋ : K) := by exact_mod_cast min_le_left _ _
      _ ≤ extent / rl := Int.floor_le _
  · exact absurd rfl h

omit [IsStrictOrderedRing K] in
/-- The coordinate is the floor, clamped to the cells. -/
theorem cellCoord_eq (t : K) {m : ℕ} (hm : 0 < m) :
    (cellCoord t m : ℤ) = max 0 (min ⌊t⌋ (m - 1)) := by
  have hcast : ((m - 1 : ℕ) : K) = ((m - 1 : ℤ) : K) := by
    rw [Nat.cast_sub hm]
    simp
  unfold cellCoord
  split
  · next h0 =>
    have hfl : 0 ≤ ⌊t⌋ := Int.floor_nonneg.mpr h0
    rw [hcast]
    split
    · next hlt =>
      have := Int.floor_lt.mpr hlt
      rw [trunc, if_pos h0]
      omega
    · next hge =>
      have := Int.le_floor.mpr (not_lt.mp hge)
      omega
  · next h0 =>
    have := Int.floor_lt.mpr (show t < ((0 : ℤ) : K) by simpa using h0)
    simp only [CharP.cast_eq_zero]
    omega

omit [IsStrictOrderedRing K] in
theorem cellCoord_lt (t : K) {m : ℕ} (hm : 0 < m) : cellCoord t m < m := by
  have := cellCoord_eq t hm
  omega

omit [IsStrictOrderedRing K] in
theorem axisCell_lt (wrap : Bool) (lo extent inv x : K) {m : ℕ} (hm : 0 < m) :
    axisCell wrap lo extent inv m x < m := by
  unfold axisCell
  split <;> exact cellCoord_lt _ hm

theorem floor_sub_floor {s t : K} (h : |t - s| ≤ 1) : -1 ≤ ⌊t⌋ - ⌊s⌋ ∧ ⌊t⌋ - ⌊s⌋ ≤ 1 := by
  obtain ⟨h1, h2⟩ := abs_le.mp h
  have hl : ⌊s⌋ ≤ ⌊t + 1⌋ := Int.floor_le_floor (by linarith)
  have hu : ⌊t⌋ ≤ ⌊s + 1⌋ := Int.floor_le_floor (by linarith)
  rw [Int.floor_add_one] at hl hu
  omega

/-- Free axis: coordinates within `rl` lie in the same or in adjacent cells. -/
theorem near_free {lo extent rl inv x x' : K} (hrl : 0 < rl) (h : |x' - x| ≤ rl) :
    ∃ o, (-1 ≤ o ∧ o ≤ 1) ∧ shiftAxis (axisCells extent rl) false
      (axisCell false lo extent inv (axisCells extent rl) x) o =
        some (axisCell false lo extent inv (axisCells extent rl) x') := by
  have hm := axisCells_pos extent rl
  set m := axisCells extent rl with hmdef
  have hc := axisCell_lt false lo extent inv x hm
  have hc' := axisCell_lt false lo extent inv x' hm
  suffices hnear : -1 ≤ (axisCell false lo extent inv m x' : ℤ) - axisCell false lo extent inv m x ∧
      (axisCell false lo extent inv m x' : ℤ) - axisCell false lo extent inv m x ≤ 1 by
    exact ⟨_, hnear, (shiftAxis_eq_some hc hnear).mpr ⟨hc', Or.inl (by omega)⟩⟩
  by_cases h1 : m = 1
  · omega
  · have hext : m * rl ≤ extent := axisCells_mul_le hrl h1
    have hpos : 0 < extent :=
      (mul_pos (show (0 : K) < m by exact_mod_cast hm) hrl).trans_le hext
    have ht : |(x' - lo) * (m / extent) - (x - lo) * (m / extent)| ≤ 1 := by
      rw [← sub_mul, sub_sub_sub_cancel_right, abs_mul, abs_of_nonneg (a := (m : K) / extent)
        (by positivity), ← mul_div_assoc, div_le_one hpos]
      calc |x' - x| * m ≤ rl * m := mul_le_mul_of_nonneg_right h (Nat.cast_nonneg m)
        _ = m * rl := mul_comm _ _
        _ ≤ extent := hext
    have hfl := floor_sub_floor ht
    simp only [axisCell, Bool.false_eq_true, if_false, if_pos hpos, cellCoord_eq _ hm]
    omega

/-- Wrapped axis: an image within `rl` lies in the same or in an adjacent cell. -/
theorem near_wrapped {w rl x x' : K} (hrl : 0 < rl) (h3 : 3 ≤ axisCells w rl)
    (h : |foldAxis w (1 / w) (x' - x)| ≤ rl) (lo : K) :
    ∃ o, (-1 ≤ o ∧ o ≤ 1) ∧ shiftAxis (axisCells w rl) true
      (axisCell true lo w (1 / w) (axisCells w rl) x) o =
        some (axisCell true lo w (1 / w) (axisCells w rl) x') := by
  have hw : axisCells w rl * rl ≤ w := axisCells_mul_le hrl (by omega)
  set m := axisCells w rl with hmdef
  have hm : 0 < m := by omega
  have hmK : (0 : K) < m := by exact_mod_cast hm
  have hwpos : 0 < w := (mul_pos hmK hrl).trans_le hw
  have hc := axisCell_lt true lo w (1 / w) x hm
  have hc' := axisCell_lt true lo w (1 / w) x' hm
  -- the scaled coordinates differ by at most one, up to a multiple of the cell count
  have scaled : ∀ y : K, 0 ≤ Int.fract (y * (1 / w)) * m ∧ Int.fract (y * (1 / w)) * m < m := by
    intro y
    have h0 := Int.fract_nonneg (y * (1 / w))
    have h1 := Int.fract_lt_one (y * (1 / w))
    exact ⟨by positivity, by nlinarith⟩
  have coord : ∀ y : K, (axisCell true lo w (1 / w) m y : ℤ) = ⌊Int.fract (y * (1 / w)) * m⌋ := by
    intro y
    obtain ⟨h0, h1⟩ := scaled y
    have hf0 := Int.floor_nonneg.mpr h0
    have hf1 : ⌊Int.fract (y * (1 / w)) * m⌋ < m := Int.floor_lt.mpr (by exact_mod_cast h1)
    simp only [axisCell, if_true, Int.self_sub_floor, cellCoord_eq _ hm]
    omega
  set r := halfAway ((x' - x) * (1 / w)) with hr
  obtain ⟨q, hq⟩ : ∃ q : ℤ, q = r - ⌊x' * (1 / w)⌋ + ⌊x * (1 / w)⌋ := ⟨_, rfl⟩
  have hdiff : |Int.fract (x' * (1 / w)) * m - ((m * q : ℤ) : K) - Int.fract (x * (1 / w)) * m| ≤ 1 := by
    have he : Int.fract (x' * (1 / w)) * m - ((m * q : ℤ) : K) - Int.fract (x * (1 / w)) * m =
        foldAxis w (1 / w) (x' - x) * (m / w) := by
      rw [foldAxis, ← hr, Int.fract, Int.fract, hq]
      push_cast
      field_simp
      ring
    rw [he, abs_mul, abs_of_nonneg (a := (m : K) / w) (by positivity), ← mul_div_assoc,
      div_le_one hwpos]
    calc |foldAxis w (1 / w) (x' - x)| * m ≤ rl * m :=
          mul_le_mul_of_nonneg_right h (Nat.cast_nonneg m)
      _ = m * rl := mul_comm _ _
      _ ≤ w := hw
  have hfl := floor_sub_floor hdiff
  rw [Int.floor_sub_intCast, ← coord, ← coord] at hfl
  -- both coordinates lie in `[0, m)`, so the multiple is -1, 0 or 1
  have hq1 : q = -1 ∨ q = 0 ∨ q = 1 := by
    have hlo : -2 < q := by nlinarith
    have hhi : q < 2 := by nlinarith
    omega
  refine ⟨_, hfl, (shiftAxis_eq_some hc hfl).mpr ⟨hc', ?_⟩⟩
  rcases hq1 with rfl | rfl | rfl
  · exact Or.inr ⟨rfl, Or.inr (by omega)⟩
  · exact Or.inl (by omega)
  · exact Or.inr ⟨rfl, Or.inl (by omega)⟩

end Axis

section Tests
variable {K : Type} [Field K] [LinearOrder K] [FloorRing K]
variable {R : Positions K} {n : ℕ} {w inv : Vec3 K} {rl : K} {g : CellGrid}

/-- What an accepted grid holds: its cells per axis and the atoms of each cell. -/
structure Gridded (R : Positions K) (n : ℕ) (w inv : Vec3 K) (rl : K) (g : CellGrid) : Prop where
  rl_pos : 0 < rl
  nc_eq : g.nc = gridCells R n w inv rl
  wrap_eq : ∀ k, g.wrap k = decide (inv k ≠ 0)
  three_le : ∀ k, g.wrap k = true → 3 ≤ g.nc k
  cell_lt : ∀ a k, cellOf R n w inv rl a k < g.nc k
  row_eq : ∀ c, (∀ k, c k < g.nc k) → g.row (linearIndex g.nc c) =
    (List.range n).filter fun a => cellOf R n w inv rl a = c

theorem bucket_map (f : ℕ → ℕ) (l : List ℕ) (k : ℕ) :
    bucket (l.map fun a => (f a, a)) k = l.filter fun a => f a = k := by
  rw [bucket, List.filter_map, List.map_map]
  exact List.map_id _

variable [IsStrictOrderedRing K]

omit [IsStrictOrderedRing K] in
theorem build_eq_some (h : CellGrid.build R n w inv rl = some g) : Gridded R n w inv rl g := by
  unfold CellGrid.build at h
  simp only at h
  split at h
  · cases h
  next hrl =>
  split at h
  · cases h
  next h3 =>
  split at h
  · cases h
  next hcount =>
  split at h
  · cases h
  have hlt : ∀ a k, cellOf R n w inv rl a k < gridCells R n w inv rl k :=
    fun a k => axisCell_lt _ _ _ _ _ (axisCells_pos _ _)
  cases h
  refine ⟨by tauto, rfl, fun _ => rfl, ?_, hlt, ?_⟩
  · intro k hk
    by_contra hn
    exact h3 ⟨k, hk, not_le.mp hn⟩
  · intro c hc
    have hkeys : ∀ p ∈ (List.range n).map
        fun a => (linearIndex (gridCells R n w inv rl) (cellOf R n w inv rl a), a),
        p.1 < gridCells R n w inv rl 0 * gridCells R n w inv rl 1 * gridCells R n w inv rl 2 := by
      intro p hp
      obtain ⟨a, -, rfl⟩ := List.mem_map.mp hp
      exact linearIndex_lt (hlt a)
    have hrow := slice_place _ hkeys (linearIndex_lt hc) fun _ => 0
    rw [CellGrid.row]
    refine hrow.trans ?_
    rw [bucket_map]
    apply List.filter_congr
    intro a _
    rw [decide_eq_decide]
    exact ⟨fun he => linearIndex_inj (hlt a) hc he, fun he => by rw [he]⟩

variable (hg : Gridded R n w inv rl g)
include hg

omit [IsStrictOrderedRing K] in
theorem Gridded.mem_row {c : Fin 3 → ℕ} (hc : ∀ k, c k < g.nc k) {a : ℕ} :
    a ∈ g.row (linearIndex g.nc c) ↔ a < n ∧ cellOf R n w inv rl a = c := by
  rw [hg.row_eq c hc, List.mem_filter, List.mem_range, decide_eq_true_iff]

omit [IsStrictOrderedRing K] in
theorem Gridded.row_sorted {c : Fin 3 → ℕ} (hc : ∀ k, c k < g.nc k) :
    (g.row (linearIndex g.nc c)).Pairwise (· < ·) := by
  rw [hg.row_eq c hc]
  exact List.Pairwise.filter _ List.pairwise_lt_range

omit hg in
theorem cellPairs_eq (g : CellGrid) (c : ℕ) : g.cellPairs c = selfPairs (g.row c) := by
  rcases le_total (g.start c) (g.start (c + 1)) with h | h
  · have := flatMap_range'_pairs g.atoms (g.start c) (g.start (c + 1) - g.start c)
    rwa [Nat.add_sub_cancel' h] at this
  · simp [CellGrid.cellPairs, CellGrid.row, slice, Nat.sub_eq_zero_of_le h, selfPairs]

/-- The stencil part of one cell, as neighbours in `shiftCell`. -/
def stencilTests (g : CellGrid) (c : Fin 3 → ℕ) : List (ℕ × ℕ) :=
  kHalfStencil.flatMap fun o => match neighbour g.nc g.wrap c o with
    | none => []
    | some d => g.stencilPairs (linearIndex g.nc c) d

omit hg in
/-- The empty cells the scan skips would contribute nothing. -/
theorem tests_eq (g : CellGrid) : g.tests = (cells g.nc).flatMap fun c =>
    selfPairs (g.row (linearIndex g.nc c)) ++ stencilTests g c := by
  unfold CellGrid.tests
  congr 1
  funext c
  simp only
  split
  · next h =>
    have hrow : g.row (linearIndex g.nc c) = [] := by simp [CellGrid.row, slice, h]
    have hsten : stencilTests g c = [] := by
      unfold stencilTests
      rw [List.flatMap_eq_nil_iff]
      intro o _
      split <;> simp [CellGrid.stencilPairs, hrow]
    rw [hrow, hsten]
    rfl
  · rw [cellPairs_eq]
    rfl

omit [IsStrictOrderedRing K] in
theorem Gridded.mem_stencilTests {c : Fin 3 → ℕ} (hc : ∀ k, c k < g.nc k) {a b : ℕ} :
    (a, b) ∈ stencilTests g c ↔ (a < n ∧ cellOf R n w inv rl a = c) ∧ b < n ∧
      ∃ o ∈ kHalfStencil, shiftCell g.nc g.wrap c o = some (cellOf R n w inv rl b) := by
  simp only [stencilTests, List.mem_flatMap, neighbour]
  constructor
  · rintro ⟨o, ho, h⟩
    cases hs : shiftCell g.nc g.wrap c o with
    | none => simp [hs] at h
    | some d =>
      have hd := shiftCell_lt hc (isOffset_of_mem ho) hs
      simp only [hs, Option.map_some, CellGrid.stencilPairs, List.mem_flatMap, List.mem_map,
        Prod.mk.injEq] at h
      obtain ⟨i, hi, j, hj, rfl, rfl⟩ := h
      obtain ⟨hjn, hjd⟩ := (hg.mem_row hd).mp hj
      exact ⟨(hg.mem_row hc).mp hi, hjn, o, ho, by rw [hs, hjd]⟩
  · rintro ⟨ha, hb, o, ho, hs⟩
    have hd := shiftCell_lt hc (isOffset_of_mem ho) hs
    refine ⟨o, ho, ?_⟩
    simp only [hs, Option.map_some, CellGrid.stencilPairs, List.mem_flatMap, List.mem_map,
      Prod.mk.injEq]
    exact ⟨a, (hg.mem_row hc).mpr ha, b, (hg.mem_row hd).mpr ⟨hb, rfl⟩, rfl, rfl⟩

omit [IsStrictOrderedRing K] in
theorem Gridded.mem_tests {a b : ℕ} : (a, b) ∈ g.tests ↔ a < n ∧ b < n ∧
    (cellOf R n w inv rl a = cellOf R n w inv rl b ∧ a < b ∨ ∃ o ∈ kHalfStencil,
      shiftCell g.nc g.wrap (cellOf R n w inv rl a) o = some (cellOf R n w inv rl b)) := by
  simp only [tests_eq, List.mem_flatMap, List.mem_append, mem_cells]
  constructor
  · rintro ⟨c, hc, h | h⟩
    · obtain ⟨ha, hb, hlt⟩ := (mem_selfPairs (hg.row_sorted hc)).mp h
      rw [hg.mem_row hc] at ha hb
      exact ⟨ha.1, hb.1, Or.inl ⟨ha.2.trans hb.2.symm, hlt⟩⟩
    · obtain ⟨⟨ha, rfl⟩, hb, hs⟩ := (hg.mem_stencilTests hc).mp h
      exact ⟨ha, hb, Or.inr hs⟩
  · rintro ⟨ha, hb, h⟩
    have hc : ∀ k, cellOf R n w inv rl a k < g.nc k := hg.cell_lt a
    refine ⟨cellOf R n w inv rl a, hc, ?_⟩
    rcases h with ⟨he, hlt⟩ | hs
    · left
      rw [mem_selfPairs (hg.row_sorted hc), hg.mem_row hc, hg.mem_row hc]
      exact ⟨⟨ha, rfl⟩, ⟨hb, he.symm⟩, hlt⟩
    · exact Or.inr ((hg.mem_stencilTests hc).mpr ⟨⟨ha, rfl⟩, hb, hs⟩)

omit [IsStrictOrderedRing K] in
/-- A stencil neighbour is another cell. -/
theorem Gridded.shiftCell_ne_self {c : Fin 3 → ℕ} (hc : ∀ k, c k < g.nc k) {o : Fin 3 → ℤ}
    (ho : o ∈ kHalfStencil) : shiftCell g.nc g.wrap c o ≠ some c := fun h =>
  ne_zero_of_mem ho (shiftCell_offset_inj hc hg.three_le (isOffset_of_mem ho) (by simp [IsOffset])
    h (shiftCell_zero hc))

omit [IsStrictOrderedRing K] in
theorem Gridded.stencilTests_nodup {c : Fin 3 → ℕ} (hc : ∀ k, c k < g.nc k) :
    (stencilTests g c).Nodup := by
  have hrow : ∀ d, (∀ k, d k < g.nc k) → (g.row (linearIndex g.nc d)).Nodup :=
    fun d hd => (hg.row_sorted hd).imp ne_of_lt
  rw [stencilTests, List.nodup_flatMap]
  constructor
  · intro o ho
    rw [neighbour]
    cases hs : shiftCell g.nc g.wrap c o with
    | none => exact List.nodup_nil
    | some d =>
      have hd := shiftCell_lt hc (isOffset_of_mem ho) hs
      exact (hrow c hc).product (hrow d hd)
  · have hst : kHalfStencil.Nodup := by decide
    apply List.Pairwise.imp_of_mem _ hst
    rintro o o' ho ho' hne ⟨a, b⟩ hp hp'
    -- the partner's cell tells the offset
    have cellOfPartner : ∀ o ∈ kHalfStencil, (a, b) ∈ (match neighbour g.nc g.wrap c o with
        | none => []
        | some d => g.stencilPairs (linearIndex g.nc c) d) →
        shiftCell g.nc g.wrap c o = some (cellOf R n w inv rl b) := by
      intro o ho h
      rw [neighbour] at h
      cases hs : shiftCell g.nc g.wrap c o with
      | none => simp [hs] at h
      | some d =>
        have hd := shiftCell_lt hc (isOffset_of_mem ho) hs
        simp only [hs, Option.map_some, CellGrid.stencilPairs, List.mem_flatMap, List.mem_map,
          Prod.mk.injEq] at h
        obtain ⟨i, -, j, hj, -, rfl⟩ := h
        rw [((hg.mem_row hd).mp hj).2]
    exact hne (shiftCell_offset_inj hc hg.three_le (isOffset_of_mem ho) (isOffset_of_mem ho')
      (cellOfPartner o ho hp) (cellOfPartner o' ho' hp'))

omit [IsStrictOrderedRing K] in
theorem Gridded.tests_nodup : g.tests.Nodup := by
  rw [tests_eq, List.nodup_flatMap]
  constructor
  · intro c hc
    rw [mem_cells] at hc
    refine List.Nodup.append (selfPairs_nodup ((hg.row_sorted hc).imp ne_of_lt))
      (hg.stencilTests_nodup hc) ?_
    rintro ⟨a, b⟩ h h'
    obtain ⟨-, hb, -⟩ := (mem_selfPairs (hg.row_sorted hc)).mp h
    obtain ⟨-, -, o, ho, hs⟩ := (hg.mem_stencilTests hc).mp h'
    rw [((hg.mem_row hc).mp hb).2] at hs
    exact hg.shiftCell_ne_self hc ho hs
  · apply List.Pairwise.imp_of_mem _ (cells_nodup g.nc)
    rintro c c' hc hc' hne ⟨a, b⟩ h h'
    rw [mem_cells] at hc hc'
    have first : ∀ d, (∀ k, d k < g.nc k) →
        (a, b) ∈ selfPairs (g.row (linearIndex g.nc d)) ++ stencilTests g d →
        cellOf R n w inv rl a = d := by
      intro d hd h
      rcases List.mem_append.mp h with h | h
      · exact ((hg.mem_row hd).mp ((mem_selfPairs (hg.row_sorted hd)).mp h).1).2
      · exact ((hg.mem_stencilTests hd).mp h).1.2
    exact hne ((first c hc h).symm.trans (first c' hc' h'))

omit [IsStrictOrderedRing K] in
/-- No pair is tested in both orders. -/
theorem Gridded.swap_notMem_tests {a b : ℕ} (h : (a, b) ∈ g.tests) : (b, a) ∉ g.tests := by
  intro h'
  obtain ⟨-, -, h⟩ := hg.mem_tests.mp h
  obtain ⟨-, -, h'⟩ := hg.mem_tests.mp h'
  have hca := hg.cell_lt a
  have hcb := hg.cell_lt b
  rcases h with ⟨he, hlt⟩ | ⟨o, ho, hs⟩ <;> rcases h' with ⟨he', hlt'⟩ | ⟨o', ho', hs'⟩
  · exact lt_asymm hlt hlt'
  · exact hg.shiftCell_ne_self hcb ho' (he ▸ hs')
  · exact hg.shiftCell_ne_self hca ho (he' ▸ hs)
  · have hback := shiftCell_neg hca (isOffset_of_mem ho) hs
    have hneg : IsOffset (-o) := fun k => by
      have := isOffset_of_mem ho k
      simp only [Pi.neg_apply]
      omega
    have he := shiftCell_offset_inj hcb hg.three_le hneg (isOffset_of_mem ho') hback hs'
    exact neg_notMem ho (he ▸ ho')

end Tests

section Report
variable {K : Type} [Field K] [LinearOrder K] [FloorRing K] [IsStrictOrderedRing K]
variable {R : Positions K} {n : ℕ} {w inv : Vec3 K} {rl : K} {g : CellGrid}

def oriented (p : ℕ × ℕ) : ℕ × ℕ := if p.2 < p.1 then (p.2, p.1) else p

theorem cellTest_eq (R : Positions K) (w inv : Vec3 K) (p : ℕ × ℕ) :
    cellTest R w inv p = scanVisit R w inv (oriented p) := by
  unfold cellTest oriented scanVisit
  simp only
  split
  · have hd : foldDiag w inv (R p.1 - R p.2) = -foldDiag w inv (R p.2 - R p.1) := by
      rw [← foldDiag_neg, neg_sub]
    simp [hd]
  · rfl

variable (hg : Gridded R n w inv rl g) (hinv : ∀ k, inv k ≠ 0 → inv k = 1 / w k)
include hg

omit [IsStrictOrderedRing K] in
theorem Gridded.oriented_nodup : (g.tests.map oriented).Nodup := by
  apply List.Nodup.map_on _ hg.tests_nodup
  rintro ⟨a, b⟩ h ⟨a', b'⟩ h' he
  simp only [oriented] at he
  have hsw := hg.swap_notMem_tests h
  split_ifs at he <;> simp only [Prod.mk.injEq] at he <;> obtain ⟨rfl, rfl⟩ := he
  · rfl
  · exact (hsw h').elim
  · exact (hsw h').elim
  · rfl

omit [IsStrictOrderedRing K] in
theorem Gridded.oriented_mem {p : ℕ × ℕ} (h : p ∈ g.tests) : oriented p ∈ ascendingPairs n := by
  obtain ⟨a, b⟩ := p
  have hne : a ≠ b := by
    rintro rfl
    exact hg.swap_notMem_tests h h
  obtain ⟨ha, hb, -⟩ := hg.mem_tests.mp h
  unfold oriented
  split <;> rw [mem_ascendingPairs]
  · exact ⟨by assumption, ha⟩
  · exact ⟨by simp only at *; omega, hb⟩

include hinv

/-- Atoms whose folded separation is at most `rl` along each axis lie in one cell or in
neighbouring cells. -/
theorem Gridded.near_cells {a b : ℕ} (h : ∀ k, |foldDiag w inv (R b - R a) k| ≤ rl) :
    ∃ o, IsOffset o ∧ shiftCell g.nc g.wrap (cellOf R n w inv rl a) o =
      some (cellOf R n w inv rl b) := by
  have axis : ∀ k, ∃ o, (-1 ≤ o ∧ o ≤ 1) ∧ shiftAxis (g.nc k) (g.wrap k)
      (cellOf R n w inv rl a k) o = some (cellOf R n w inv rl b k) := by
    intro k
    have hk := h k
    rw [hg.wrap_eq k, hg.nc_eq]
    simp only [foldDiag, Pi.sub_apply] at hk
    unfold cellOf gridCells
    by_cases h0 : inv k = 0
    · rw [h0, foldAxis_zero_inv] at hk
      simp only [axisExtent, h0, ne_eq, not_true_eq_false, decide_false, if_false]
      exact near_free hg.rl_pos hk
    · have hthree := hg.three_le k (by simp [hg.wrap_eq k, h0])
      rw [hg.nc_eq] at hthree
      simp only [gridCells, axisExtent, if_pos h0] at hthree
      rw [hinv k h0] at hk
      simp only [axisExtent, decide_true, ne_eq, h0, not_false_eq_true]
      rw [hinv k h0]
      exact near_wrapped hg.rl_pos hthree hk 0
  choose o ho hs using axis
  exact ⟨o, ho, shiftCell_eq_some.mpr hs⟩

theorem Gridded.near_tested {i j : ℕ} (hij : i < j) (hj : j < n)
    (h : ∀ k, |foldDiag w inv (R j - R i) k| ≤ rl) : (i, j) ∈ g.tests ∨ (j, i) ∈ g.tests := by
  obtain ⟨o, ho, hs⟩ := hg.near_cells hinv h
  have hci := hg.cell_lt i
  by_cases h0 : o = 0
  · left
    rw [h0, shiftCell_zero hci] at hs
    exact hg.mem_tests.mpr ⟨hij.trans hj, hj, Or.inl ⟨Option.some.inj hs, hij⟩⟩
  · rcases mem_or_neg_mem ho h0 with hmem | hmem
    · exact Or.inl (hg.mem_tests.mpr ⟨hij.trans hj, hj, Or.inr ⟨o, hmem, hs⟩⟩)
    · exact Or.inr (hg.mem_tests.mpr ⟨hj, hij.trans hj, Or.inr ⟨-o, hmem, shiftCell_neg hci ho hs⟩⟩)

/-- Whatever the two scans keep within `rl`, they keep the same records. -/
theorem Gridded.filter_perm (q : Visit K → Bool) (hq : ∀ v, q v = true → v.r2 ≤ rl * rl) :
    ((g.tests.map (cellTest R w inv)).filter q).Perm
      (((ascendingPairs n).map (scanVisit R w inv)).filter q) := by
  have hmap : g.tests.map (cellTest R w inv) =
      (g.tests.map oriented).map (scanVisit R w inv) := by
    rw [List.map_map]
    exact List.map_congr_left fun p _ => cellTest_eq R w inv p
  have pull : ∀ l : List (ℕ × ℕ), (l.map (scanVisit R w inv)).filter q =
      (l.filter (q ∘ scanVisit R w inv)).map (scanVisit R w inv) := fun l => List.filter_map
  rw [hmap, pull, pull]
  apply List.Perm.map
  rw [List.perm_ext_iff_of_nodup (hg.oriented_nodup.filter _) ((ascendingPairs_nodup n).filter _)]
  rintro ⟨i, j⟩
  simp only [List.mem_filter, Function.comp_apply, List.mem_map]
  constructor
  · rintro ⟨⟨p, hp, he⟩, hv⟩
    exact ⟨he ▸ hg.oriented_mem hp, hv⟩
  · rintro ⟨hmem, hv⟩
    obtain ⟨hij, hj⟩ := mem_ascendingPairs.mp hmem
    have hr : sqNorm (foldDiag w inv (R j - R i)) ≤ rl * rl := hq _ hv
    rw [sqNorm_eq_normSq] at hr
    have hnear := Lattice.abs_le_of_normSq_le hg.rl_pos.le hr
    refine ⟨?_, hv⟩
    rcases hg.near_tested hinv hij hj hnear with h | h
    · exact ⟨(i, j), h, by simp [oriented, hij.not_gt]⟩
    · exact ⟨(j, i), h, by simp [oriented, hij]⟩

/-- The linked-cell scan lists the pairs of the brute-force scan. -/
theorem Gridded.cellVisit_list_perm {lc : ListCutoff K} (vc : K)
    (hlc : ∀ r2, lc.admits r2 = true → r2 ≤ rl * rl) :
    (cellVisit g R w inv lc vc).1.Perm (bruteForceVisit R n w inv lc vc).1 :=
  (hg.filter_perm hinv _ fun v hv => hlc v.r2 hv).map _

/-- The linked-cell scan visits the records of the brute-force scan. -/
theorem Gridded.cellVisit_visit_perm {lc : ListCutoff K} {vc : K}
    (h : (∀ r2, lc.admits r2 = true → r2 ≤ rl * rl) ∨ vc ≤ rl * rl) :
    (cellVisit g R w inv lc vc).2.Perm (bruteForceVisit R n w inv lc vc).2 := by
  unfold cellVisit bruteForceVisit
  simp only [List.filter_filter]
  apply hg.filter_perm hinv
  intro v hv
  rw [Bool.and_eq_true, decide_eq_true_iff] at hv
  rcases h with hlc | hvc
  · exact hlc v.r2 hv.2
  · exact hv.1.trans hvc

end Report

section Scan
variable {K : Type} [Field K] [LinearOrder K] [FloorRing K] [IsStrictOrderedRing K]

omit [FloorRing K] in
theorem below_admits_le {r rl : K} (hr : 0 < r) (hle : r ≤ rl) (r2 : K)
    (h : (ListCutoff.below (r * r)).admits r2 = true) : r2 ≤ rl * rl := by
  have hlt : r2 < r * r := by simpa [ListCutoff.admits] using h
  exact hlt.le.trans (mul_self_le_mul_self hr.le hle)

omit [IsStrictOrderedRing K] in
/-- The pairs a brute-force scan lists are its records' indices, each pair once. -/
theorem bruteForceVisit_listed (R : Positions K) (n : ℕ) (w inv : Vec3 K) (lc : ListCutoff K)
    (vc : K) : (bruteForceVisit R n w inv lc vc).1.Nodup ∧
      ∀ p ∈ (bruteForceVisit R n w inv lc vc).1, p.1 < p.2 ∧ p.2 < n := by
  have hsub : ((bruteForceVisit R n w inv lc vc).1).Sublist (ascendingPairs n) := by
    have hmap : ascendingPairs n =
        ((ascendingPairs n).map (scanVisit R w inv)).map fun v => (v.i, v.j) := by
      rw [List.map_map]
      exact (List.map_id _).symm
    rw [hmap]
    exact List.filter_sublist.map _
  exact ⟨hsub.nodup (ascendingPairs_nodup n), fun p hp => mem_ascendingPairs.mp (hsub.subset hp)⟩

omit [IsStrictOrderedRing K] in
/-- What a brute-force scan visits it has listed. -/
theorem bruteForceVisit_visited (R : Positions K) (n : ℕ) (w inv : Vec3 K) (lc : ListCutoff K)
    (vc : K) : ((bruteForceVisit R n w inv lc vc).2.map fun v => (v.i, v.j)).Sublist
      (bruteForceVisit R n w inv lc vc).1 :=
  List.filter_sublist.map _

/-- Wherever a grid is accepted, the linked-cell scan records the pairs and visits the records of
the brute-force scan, each pair of `i < j` once. -/
theorem cellVisit_perm_bruteForceVisit {R : Positions K} {n : ℕ} {w inv : Vec3 K} {rl : K}
    {g : CellGrid} (hinv : ∀ k, inv k = 1 / w k ∨ inv k = 0)
    (hbuild : CellGrid.build R n w inv rl = some g) {r : K} (hr : 0 < r) (hle : r ≤ rl) (vc : K) :
    let linked := cellVisit g R w inv (.below (r * r)) vc
    let brute := bruteForceVisit R n w inv (.below (r * r)) vc
    linked.1.Perm brute.1 ∧ linked.2.Perm brute.2 ∧
      linked.1.Nodup ∧ (linked.2.map fun v => (v.i, v.j)).Nodup ∧
      (∀ p ∈ linked.1, p.1 < p.2 ∧ p.2 < n) ∧ ∀ v ∈ linked.2, v.i < v.j ∧ v.j < n := by
  intro linked brute
  have hg := build_eq_some hbuild
  have hinv' : ∀ k, inv k ≠ 0 → inv k = 1 / w k := by
    intro k hk
    rcases hinv k with h | h
    · exact h
    · exact (hk h).elim
  have hlist : linked.1.Perm brute.1 :=
    hg.cellVisit_list_perm hinv' vc (below_admits_le hr hle)
  have hvisit : linked.2.Perm brute.2 :=
    hg.cellVisit_visit_perm hinv' (Or.inl (below_admits_le hr hle))
  obtain ⟨hnodup, hmem⟩ := bruteForceVisit_listed R n w inv (.below (r * r)) vc
  have hsub := bruteForceVisit_visited R n w inv (.below (r * r)) vc
  refine ⟨hlist, hvisit, hlist.nodup_iff.mpr hnodup,
    (hvisit.map _).nodup_iff.mpr (hsub.nodup hnodup), ?_, ?_⟩
  · intro p hp
    exact hmem p (hlist.mem_iff.mp hp)
  · intro v hv
    exact hmem (v.i, v.j) (hsub.subset (List.mem_map_of_mem (hvisit.mem_iff.mp hv)))

/-- A chain of dimers along the first axis. -/
def chainR : Positions ℚ := fun a => ![a - (a % 2 : ℕ) / 2, 0, 0]

/-- 34 dimers in a box of their length, periodic along the chain. -/
theorem cellVisit_perm_bruteForceVisit_chain :
    ∃ g, CellGrid.build chainR 68 ![68, 0, 0] ![1 / 68, 0, 0] 1 = some g ∧
      (cellVisit g chainR ![68, 0, 0] ![1 / 68, 0, 0] (.below (1 * 1)) 1).1.Perm
        (bruteForceVisit chainR 68 ![68, 0, 0] ![1 / 68, 0, 0] (.below (1 * 1)) 1).1 := by
  have hsome : (CellGrid.build chainR 68 ![68, 0, 0] ![1 / 68, 0, 0] 1).isSome = true := by
    decide +kernel
  obtain ⟨g, hg⟩ := Option.isSome_iff_exists.mp hsome
  have hinv : ∀ k, (![1 / 68, 0, 0] : Vec3 ℚ) k = 1 / (![68, 0, 0] : Vec3 ℚ) k ∨
      (![1 / 68, 0, 0] : Vec3 ℚ) k = 0 := by
    intro k
    fin_cases k <;> simp
  exact ⟨g, hg, (cellVisit_perm_bruteForceVisit hinv hg one_pos le_rfl 1).1⟩

end Scan
end Rgpot.Nlist
