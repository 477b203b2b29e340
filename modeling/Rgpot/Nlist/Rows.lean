import Rgpot.Nlist.PairList
import Rgpot.Nlist.CellVisit

/-! What the rows of a built list hold: the partners a scan lists, in ascending order. -/
namespace Rgpot.Nlist
open Rounding CountingSort

section Sorting

theorem slice_writeRow_self {rows out : ℕ → ℕ} {i : ℕ} {row : List ℕ}
    (h : row.length = rows (i + 1) - rows i) : slice rows (writeRow out (rows i) row) i = row := by
  apply List.ext_getElem
  · simp [slice, h]
  · intro k hk hk'
    simp [slice, writeRow, hk']

theorem slice_writeRow_of_ne {rows out : ℕ → ℕ} {n i j : ℕ} {row : List ℕ}
    (hmono : ∀ {a b}, a ≤ b → b ≤ n → rows a ≤ rows b) (hi : i < n) (hj : j < n) (hij : i ≠ j)
    (h : row.length = rows (i + 1) - rows i) :
    slice rows (writeRow out (rows i) row) j = slice rows out j := by
  apply List.map_congr_left
  intro p hp
  rw [List.mem_range'_1] at hp
  unfold writeRow
  split
  · next hle =>
    have hfar : row.length ≤ p - rows i := by
      have := hmono (Nat.le_succ i) hi
      rcases Nat.lt_or_ge i j with hlt | hge
      · have := hmono (show i + 1 ≤ j from hlt) hj.le
        omega
      · have := hmono (show j + 1 ≤ i by omega) hi.le
        omega
    simp [hfar]
  · rfl

theorem slice_sortRows {rows nbr : ℕ → ℕ} {n : ℕ}
    (hmono : ∀ {a b}, a ≤ b → b ≤ n → rows a ≤ rows b) {i : ℕ} (hi : i < n) :
    slice rows (sortRows rows nbr n) i = (slice rows nbr i).insertionSort (· ≤ ·) := by
  -- after `m` rows, the rows below `m` are sorted and the others untouched
  suffices h : ∀ m ≤ n, ∀ j < n, slice rows (sortRows rows nbr m) j =
      if j < m then (slice rows nbr j).insertionSort (· ≤ ·) else slice rows nbr j by
    rw [h n le_rfl i hi, if_pos hi]
  intro m
  induction m with
  | zero => exact fun _ j _ => rfl
  | succ m ih =>
    intro hm j hj
    have hprev := ih (by omega)
    rw [sortRows, List.range_succ, List.foldl_append, List.foldl_cons, List.foldl_nil]
    change slice rows (writeRow (sortRows rows nbr m) (rows m)
      ((slice rows (sortRows rows nbr m) m).insertionSort (· ≤ ·))) j = _
    have hlen : ((slice rows (sortRows rows nbr m) m).insertionSort (· ≤ ·)).length =
        rows (m + 1) - rows m := by
      simp [slice]
    by_cases hjm : m = j
    · subst hjm
      rw [slice_writeRow_self hlen, hprev m (by omega)]
      simp
    · rw [slice_writeRow_of_ne hmono (by omega) hj hjm hlen, hprev j hj]
      congr 1
      rw [eq_iff_iff]
      omega

end Sorting

section Buckets

/-- The pairs a scan lists when its test is `t`. -/
def listedPairs (n : ℕ) (t : ℕ → ℕ → Bool) : List (ℕ × ℕ) :=
  (ascendingPairs n).filter fun p => t p.1 p.2

/-- The partners of atom `i` in that list. -/
def rowOf (n : ℕ) (t : ℕ → ℕ → Bool) (i : ℕ) : List ℕ :=
  (List.range' (i + 1) (n - (i + 1))).filter (t i)

theorem mem_listedPairs {n i j : ℕ} {t : ℕ → ℕ → Bool} :
    (i, j) ∈ listedPairs n t ↔ i < j ∧ j < n ∧ t i j = true := by
  rw [listedPairs, List.mem_filter, mem_ascendingPairs, and_assoc]

theorem listedPairs_fst_lt {n : ℕ} {t : ℕ → ℕ → Bool} {p : ℕ × ℕ} (h : p ∈ listedPairs n t) :
    p.1 < n := by
  obtain ⟨i, j⟩ := p
  obtain ⟨hij, hj, -⟩ := mem_listedPairs.mp h
  exact hij.trans hj

theorem listedPairs_eq_flatMap (n : ℕ) (t : ℕ → ℕ → Bool) :
    listedPairs n t = (List.range n).flatMap fun i => (rowOf n t i).map (Prod.mk i) := by
  rw [listedPairs, ascendingPairs, List.filter_flatMap]
  congr 1
  funext i
  rw [List.filter_map, rowOf]
  rfl

theorem rowOf_sorted (n : ℕ) (t : ℕ → ℕ → Bool) (i : ℕ) : (rowOf n t i).Pairwise (· < ·) :=
  List.Pairwise.filter _ List.pairwise_lt_range'

theorem filter_fst_map_mk {α : Type} (i k : ℕ) (row : List α) :
    (row.map (Prod.mk i)).filter (fun p => p.1 = k) = if i = k then row.map (Prod.mk i) else [] := by
  by_cases h : i = k <;> simp [List.filter_map, Function.comp_def, h]

theorem bucket_listedPairs {n : ℕ} {t : ℕ → ℕ → Bool} {k : ℕ} (hk : k < n) :
    bucket (listedPairs n t) k = rowOf n t k := by
  rw [listedPairs_eq_flatMap, bucket, List.filter_flatMap]
  simp only [filter_fst_map_mk]
  have hsplit : List.range n = List.range k ++ k :: List.range' (k + 1) (n - (k + 1)) := by
    rw [List.range_eq_range', List.range_eq_range', ← List.range'_succ,
      show n - (k + 1) + 1 = n - k by omega]
    conv_lhs => rw [show n = k + (n - k) by omega]
    rw [← List.range'_append_1, Nat.zero_add]
  rw [hsplit, List.flatMap_append, List.flatMap_cons, if_pos rfl]
  have hlo : (List.range k).flatMap (fun i => if i = k then (rowOf n t i).map (Prod.mk i) else []) =
      [] := by
    rw [List.flatMap_eq_nil_iff]
    intro i hi
    rw [if_neg (List.mem_range.mp hi).ne]
  have hhi : (List.range' (k + 1) (n - (k + 1))).flatMap
      (fun i => if i = k then (rowOf n t i).map (Prod.mk i) else []) = [] := by
    rw [List.flatMap_eq_nil_iff]
    intro i hi
    rw [List.mem_range'_1] at hi
    rw [if_neg (by omega)]
  rw [hlo, hhi, List.nil_append, List.append_nil, List.map_map]
  exact List.map_id _

theorem insertionSort_bucket {n : ℕ} {t : ℕ → ℕ → Bool} {pairs : List (ℕ × ℕ)}
    (h : pairs.Perm (listedPairs n t)) {k : ℕ} (hk : k < n) :
    (bucket pairs k).insertionSort (· ≤ ·) = rowOf n t k := by
  have hperm : (bucket pairs k).Perm (rowOf n t k) := by
    rw [← bucket_listedPairs hk]
    exact (h.filter _).map _
  have hsort : (rowOf n t k).Pairwise (· ≤ ·) := (rowOf_sorted n t k).imp le_of_lt
  exact ((List.perm_insertionSort _ _).trans hperm).eq_of_pairwise
    (fun _ _ _ _ => le_antisymm) (List.pairwise_insertionSort _ _) hsort

end Buckets

variable {K : Type} [Field K] [LinearOrder K] [FloorRing K] [OutwardRoot K]

/-- A list whose rows hold the pairs that pass `t`. -/
structure Lists (l : CachedPairList K) (n : ℕ) (t : ℕ → ℕ → Bool) : Prop where
  n_eq : l.n = n
  row_eq : ∀ i < n, slice l.rows l.nbr i = rowOf n t i
  mono : ∀ {a b}, a ≤ b → b ≤ n → l.rows a ≤ l.rows b

section Codes
variable (l : CachedPairList K)

omit [OutwardRoot K] in
/-- Recording images changes the fold, the codes and the shifts only. -/
theorem buildImageCodes_frame : ∃ code shift fold,
    buildImageCodes l = { l with code := code, shift := shift, fold := fold } := by
  unfold buildImageCodes
  simp only
  split_ifs
  exacts [⟨_, _, _, rfl⟩, ⟨_, _, _, rfl⟩, ⟨_, _, _, rfl⟩, ⟨_, _, _, rfl⟩, ⟨_, _, _, rfl⟩]

end Codes

section Finish
variable {s : BoxSetup K} {pairs : List (ℕ × ℕ)} {R : Positions K} {n : ℕ} {box : Box K}
  {opt : Options K} {rowsSorted codes : Bool}

omit [OutwardRoot K] in
/-- The stamp of a build, whatever fold it settles on. -/
theorem finishRebuild_frame (s : BoxSetup K) (pairs : List (ℕ × ℕ)) (R : Positions K) (n : ℕ)
    (box : Box K) (opt : Options K) (rowsSorted codes : Bool) : ∃ code shift fold,
    finishRebuild s pairs R n box opt rowsSorted codes =
      { finishRows s pairs R n box opt rowsSorted with
        code := code, shift := shift, fold := fold } := by
  unfold finishRebuild
  simp only
  split
  · exact ⟨_, _, _, rfl⟩
  · split
    · exact buildImageCodes_frame _
    · exact ⟨_, _, _, rfl⟩

omit [OutwardRoot K] in
/-- Rows of a build: exact for a scan in ascending order, sorted for any other order. -/
theorem finishRebuild_lists {t : ℕ → ℕ → Bool} (hperm : pairs.Perm (listedPairs n t))
    (hsorted : rowsSorted = true → pairs = listedPairs n t) :
    Lists (finishRebuild s pairs R n box opt rowsSorted codes) n t := by
  obtain ⟨code, shift, fold, h⟩ := finishRebuild_frame s pairs R n box opt rowsSorted codes
  have hkeys : ∀ p ∈ pairs, p.1 < n := fun p hp => listedPairs_fst_lt (hperm.mem_iff.mp hp)
  rw [h]
  refine ⟨rfl, ?_, fun hab hb => starts_mono _ hab hb⟩
  intro i hi
  cases rowsSorted with
  | true =>
    simp only [finishRows, if_true]
    rw [slice_place _ hkeys hi, hsorted rfl, bucket_listedPairs hi]
  | false =>
    simp only [finishRows, Bool.false_eq_true, if_false]
    rw [slice_sortRows (fun hab hb => starts_mono _ hab hb) hi, slice_place _ hkeys hi,
      insertionSort_bucket hperm hi]

end Finish

section Entries
variable {l : CachedPairList K} {n : ℕ} {t : ℕ → ℕ → Bool}

omit [Field K] [LinearOrder K] [FloorRing K] [OutwardRoot K] in
/-- The evaluation loops walk the listed pairs in ascending order. -/
theorem Lists.entries_map (h : Lists l n t) :
    (entries l.rows l.n).map (fun e => (e.1, l.nbr e.2)) = listedPairs n t := by
  rw [entries, h.n_eq, List.map_flatMap, listedPairs_eq_flatMap]
  apply List.flatMap_congr
  intro i hi
  rw [← h.row_eq i (List.mem_range.mp hi), slice, List.map_map, List.map_map]
  rfl

omit [Field K] [LinearOrder K] [FloorRing K] [OutwardRoot K] in
/-- A candidate of row `i` is a later atom. -/
theorem Lists.entry_lt (h : Lists l n t) {i p : ℕ} (he : (i, p) ∈ entries l.rows l.n) :
    i < l.nbr p ∧ l.nbr p < n := by
  have hpair : (i, l.nbr p) ∈ listedPairs n t := by
    rw [← h.entries_map]
    exact List.mem_map_of_mem (f := fun e : ℕ × ℕ => (e.1, l.nbr e.2)) he
  obtain ⟨hlt, hn, -⟩ := mem_listedPairs.mp hpair
  exact ⟨hlt, hn⟩

end Entries
end Rgpot.Nlist
