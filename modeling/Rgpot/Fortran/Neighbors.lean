import Rgpot.Lib.OneBasedSort

/-! The CSR neighbour tables of the Fortran kernels, built from the pairs vesin reports. -/
namespace Rgpot.Fortran
open CountingSort

/-- A pair as vesin reports it: `pairs(:, p)` counts atoms from zero, `vectors(:, p)` has the periodic
shift folded in. -/
structure Pair (K : Type) (natoms : ℕ) where
  first : Fin natoms
  second : Fin natoms
  vector : Fin 3 → K
  distance : K

/-- What one entry of a table holds. -/
@[ext] structure Neighbor (K : Type) where
  idx : ℕ
  vec : Fin 3 → K
  dist : K

/-- The arrays `idx`, `vec` and `dist` of one extent. -/
structure Buffers (K : Type) where
  extent : ℕ
  idx : ℕ → ℕ
  vec : ℕ → Fin 3 → K
  dist : ℕ → K

/-- `neighbor_table_t`, its arrays as functions of indices from one. -/
structure NeighborTable (K : Type) where
  natoms : ℕ
  row : ℕ → ℕ
  buffers : Option (Buffers K)

/-- What an allocation holds before it is written. -/
structure Heap (K : Type) where
  byJ : ℕ → ℕ
  idx : ℕ → ℕ
  vec : ℕ → Fin 3 → K
  dist : ℕ → K

variable {K : Type} {natoms : ℕ}

namespace Pair

def i (p : Pair K natoms) : ℕ := p.first + 1
def j (p : Pair K natoms) : ℕ := p.second + 1
def neighbor (p : Pair K natoms) : Neighbor K := ⟨p.j, p.vector, p.distance⟩

end Pair

/-- Turn per-atom counts into one-based row starts in place. -/
def prefixSum (row : ℕ → ℕ) (size : ℕ) : ℕ → ℕ :=
  ((List.range' 1 size).foldl (fun (row, running) k =>
    (Function.update row k running, running + row k)) (row, 1)).1

/-- The pairs of each owner and of each partner, self-image pairs left out. -/
def countPairs (nl : List (Pair K natoms)) : (ℕ → ℕ) × (ℕ → ℕ) :=
  nl.foldl (fun (row, jstart) p =>
    if p.i = p.j then (row, jstart)
    else (Function.update row p.i (row p.i + 1), Function.update jstart p.j (jstart p.j + 1)))
    (fun _ => 0, fun _ => 0)

/-- `by_j`, the places of the pairs in `nl` in ascending j; `jstart` moves along. -/
def groupByPartner (nl : List (Pair K natoms)) (jstart byJ : ℕ → ℕ) : (ℕ → ℕ) × (ℕ → ℕ) :=
  (nl.zipIdx 1).foldl (fun (jstart, byJ) (x, p) =>
    if x.i = x.j then (jstart, byJ)
    else (Function.update jstart x.j (jstart x.j + 1), Function.update byJ (jstart x.j) p))
    (jstart, byJ)

/-- Buffers that are long enough are kept, with what they hold. -/
def reserve (buffers : Option (Buffers K)) (nkept : ℕ) (heap : Heap K) : Buffers K :=
  match buffers with
  | some b =>
    if b.extent < nkept then ⟨max nkept 1, heap.idx, heap.vec, heap.dist⟩ else b
  | none => ⟨max nkept 1, heap.idx, heap.vec, heap.dist⟩

def Buffers.write (b : Buffers K) (slot : ℕ) (p : Pair K natoms) : Buffers K :=
  { b with
    idx := Function.update b.idx slot p.j
    vec := Function.update b.vec slot p.vector
    dist := Function.update b.dist slot p.distance }

/-- Each pair, taken in ascending j, goes into its owner's slice. -/
def scatter (nl : List (Pair K natoms)) (byJ row : ℕ → ℕ) (nkept : ℕ) (b : Buffers K) :
    (ℕ → ℕ) × Buffers K :=
  (List.range' 1 nkept).foldl (fun (fill, b) q =>
    match nl[byJ q - 1]? with
    | none => (fill, b)
    | some p => (Function.update fill p.i (fill p.i + 1), b.write (row p.i + fill p.i) p))
    (fun _ => 0, b)

/-- `neighbor_table_build` from a successful `compute` on. -/
def NeighborTable.build (t : NeighborTable K) (nl : List (Pair K natoms)) (heap : Heap K) :
    NeighborTable K :=
  let (row, jstart) := countPairs nl
  let row := prefixSum row (natoms + 1)
  let jstart := prefixSum jstart (natoms + 1)
  let nkept := row (natoms + 1) - 1
  let byJ := (groupByPartner nl jstart heap.byJ).2
  let b := reserve t.buffers nkept heap
  ⟨natoms, row, some (scatter nl byJ row nkept b).2⟩

/-- `neighbor_table_count_for`. -/
def NeighborTable.countFor (t : NeighborTable K) (i : ℕ) : ℕ := t.row (i + 1) - t.row i

def Buffers.entry (b : Buffers K) (slot : ℕ) : Neighbor K := ⟨b.idx slot, b.vec slot, b.dist slot⟩

/-- The entries `slot`, …, `slot + len - 1`. -/
def NeighborTable.entries (t : NeighborTable K) (slot len : ℕ) : List (Neighbor K) :=
  match t.buffers with
  | none => []
  | some b => (List.range' slot len).map b.entry

/-- The slice of atom `i`. -/
def NeighborTable.slice (t : NeighborTable K) (i : ℕ) : List (Neighbor K) :=
  t.entries (t.row i) (t.countFor i)

/-- All entries in use. -/
def NeighborTable.sequence (t : NeighborTable K) : List (Neighbor K) :=
  t.entries 1 (t.row (t.natoms + 1) - 1)

/-- The reported pairs of different atoms. -/
def kept (nl : List (Pair K natoms)) : List (Pair K natoms) := nl.filter fun p => p.i ≠ p.j

namespace Pair

theorem i_pos (p : Pair K natoms) : 1 ≤ p.i := Nat.le_add_left 1 _
theorem j_pos (p : Pair K natoms) : 1 ≤ p.j := Nat.le_add_left 1 _
theorem i_lt (p : Pair K natoms) : p.i < natoms + 1 := Nat.succ_lt_succ p.first.isLt
theorem j_lt (p : Pair K natoms) : p.j < natoms + 1 := Nat.succ_lt_succ p.second.isLt

end Pair

section Counts
variable (nl : List (Pair K natoms))

theorem kept_concat (p : Pair K natoms) :
    kept (nl ++ [p]) = kept nl ++ if p.i = p.j then [] else [p] := by
  by_cases h : p.i = p.j <;> simp [kept, h]

theorem update_count (keys : List ℕ) (k : ℕ) :
    Function.update (fun c => keys.count c) k (keys.count k + 1) =
      fun c => (keys ++ [k]).count c := by
  funext c
  rw [List.count_append, List.count_singleton]
  by_cases h : c = k
  · subst h
    simp
  · simp [h, Ne.symm h]

/-- The counts are those of the kept pairs. -/
theorem countPairs_eq : countPairs nl =
    (fun k => ((kept nl).map Pair.i).count k, fun k => ((kept nl).map Pair.j).count k) := by
  induction nl using List.reverseRecOn with
  | nil => rfl
  | append_singleton nl p ih =>
    rw [countPairs] at ih ⊢
    rw [List.foldl_append, ih, kept_concat]
    by_cases h : p.i = p.j
    · simp [h]
    · simp only [List.foldl_cons, List.foldl_nil, if_neg h, List.map_append, List.map_cons,
        List.map_nil, update_count]

variable {keys : List ℕ}

/-- The loop of `prefix_sum` after `m` entries. -/
theorem prefixSum_loop (hpos : ∀ k ∈ keys, 1 ≤ k) (m : ℕ) :
    (List.range' 1 m).foldl (fun (row, running) k =>
      (Function.update row k running, running + row k)) ((fun k => keys.count k), 1) =
    ((fun k => if 1 ≤ k ∧ k ≤ m then keys.countP (· < k) + 1 else keys.count k),
      keys.countP (· < m + 1) + 1) := by
  induction m with
  | zero =>
    have hnone : keys.countP (· < 1) = 0 := by
      apply List.countP_eq_zero.mpr
      intro k hk
      have := hpos k hk
      simp only [decide_eq_true_eq]
      omega
    refine Prod.ext (funext fun k => ?_) ?_
    · exact (if_neg (by omega : ¬ (1 ≤ k ∧ k ≤ 0))).symm
    · exact (congrArg (· + 1) hnone).symm
  | succ m ih =>
    rw [List.range'_1_concat, List.foldl_append, ih]
    refine Prod.ext (funext fun k => ?_) ?_
    · rcases Nat.lt_trichotomy k (1 + m) with h | rfl | h
      · simp only [List.foldl_cons, List.foldl_nil, Function.update_of_ne h.ne]
        by_cases h1 : 1 ≤ k
        · rw [if_pos (by omega), if_pos (by omega)]
        · rw [if_neg (by omega), if_neg (by omega)]
      · simp only [List.foldl_cons, List.foldl_nil, Function.update_self]
        rw [if_pos (by omega), Nat.add_comm 1 m]
      · simp only [List.foldl_cons, List.foldl_nil, Function.update_of_ne h.ne']
        rw [if_neg (by omega), if_neg (by omega)]
    · simp only [List.foldl_cons, List.foldl_nil]
      rw [if_neg (by omega), countP_lt_succ keys (m + 1), Nat.add_comm 1 m]
      omega

theorem prefixSum_eq (hpos : ∀ k ∈ keys, 1 ≤ k) {size k : ℕ} (h1 : 1 ≤ k) (hk : k ≤ size) :
    prefixSum (fun k => keys.count k) size k = starts keys size k + 1 := by
  rw [prefixSum, prefixSum_loop hpos, starts_eq_countP keys hk]
  exact if_pos ⟨h1, hk⟩

end Counts

section Sorts
variable (nl : List (Pair K natoms))

/-- The places of the kept pairs, under their partners. -/
def partnerItems : List (ℕ × ℕ) :=
  ((nl.zipIdx 1).filter fun x => x.1.i ≠ x.1.j).map fun x => (x.1.j, x.2)

theorem groupByPartner_eq (jstart byJ : ℕ → ℕ) :
    groupByPartner nl jstart byJ = place jstart byJ (partnerItems nl) := by
  rw [groupByPartner, place, partnerItems, List.foldl_map, List.foldl_filter]
  congr 1
  funext st x
  by_cases h : x.1.i = x.1.j <;> simp [h]

theorem mem_zipIdx_getElem {x : Pair K natoms × ℕ} (h : x ∈ nl.zipIdx 1) :
    nl[x.2 - 1]? = some x.1 := by
  rw [List.mem_zipIdx_iff_le_and_getElem?_sub] at h
  exact h.2

/-- Positions looked up again. -/
theorem lookup_map {l : List (Pair K natoms × ℕ)} (h : ∀ x ∈ l, x ∈ nl.zipIdx 1) :
    (l.map Prod.snd).filterMap (fun p => nl[p - 1]?) = l.map Prod.fst := by
  induction l with
  | nil => rfl
  | cons x l ih =>
    rw [List.map_cons, List.filterMap_cons_some (f := fun p => nl[p - 1]?)
      (mem_zipIdx_getElem nl (h x List.mem_cons_self)),
      ih fun y hy => h y (List.mem_cons_of_mem x hy), List.map_cons]

theorem map_fst_filter_zipIdx (P : Pair K natoms → Bool) :
    ((nl.zipIdx 1).filter fun x => P x.1).map Prod.fst = nl.filter P := by
  conv_rhs => rw [← List.zipIdx_map_fst 1 nl, List.filter_map]
  rfl

theorem map_fst_partnerItems : (partnerItems nl).map Prod.fst = (kept nl).map Pair.j := by
  rw [partnerItems, List.map_map, kept, ← map_fst_filter_zipIdx, List.map_map]
  rfl

theorem length_partnerItems : (partnerItems nl).length = (kept nl).length := by
  have := congrArg List.length (map_fst_partnerItems nl)
  rwa [List.length_map, List.length_map] at this

/-- The pairs in the order of their places under `by_j`. -/
theorem lookup_partnerItems :
    ((byKey Prod.fst (natoms + 1) (partnerItems nl)).map Prod.snd).filterMap
        (fun p => nl[p - 1]?) =
      byKey Pair.j (natoms + 1) (kept nl) := by
  rw [byKey, byKey, List.map_flatMap, List.filterMap_flatMap]
  congr 1
  funext k
  have hitems : ((partnerItems nl).filter fun x => x.1 = k).map Prod.snd =
      (((nl.zipIdx 1).filter fun x => x.1.j = k ∧ x.1.i ≠ x.1.j).map Prod.snd) := by
    rw [partnerItems, List.filter_map, List.filter_filter, List.map_map]
    simp [Function.comp_def]
  rw [hitems, lookup_map, kept, List.filter_filter]
  · simpa using map_fst_filter_zipIdx nl fun p => decide (p.j = k ∧ p.i ≠ p.j)
  · exact fun x hx => (List.mem_filter.mp hx).1

/-- The writes of `scatter` for pairs in a given order. -/
def scatterPairs (row : ℕ → ℕ) (st : (ℕ → ℕ) × Buffers K) (ps : List (Pair K natoms)) :
    (ℕ → ℕ) × Buffers K :=
  ps.foldl (fun (fill, b) p =>
    (Function.update fill p.i (fill p.i + 1), b.write (row p.i + fill p.i) p)) st

theorem scatter_eq (byJ row : ℕ → ℕ) (nkept : ℕ) (b : Buffers K) :
    scatter nl byJ row nkept b = scatterPairs row (fun _ => 0, b)
      (((List.range' 1 nkept).map byJ).filterMap fun p => nl[p - 1]?) := by
  rw [scatter, scatterPairs, List.foldl_filterMap, List.foldl_map]
  congr 1
  funext st q
  cases nl[byJ q - 1]? <;> rfl

theorem entry_write (b : Buffers K) (slot : ℕ) (p : Pair K natoms) :
    (b.write slot p).entry = Function.update b.entry slot p.neighbor := by
  funext s
  by_cases h : s = slot
  · subst h
    simp [Buffers.entry, Buffers.write, Pair.neighbor]
  · simp [Buffers.entry, Buffers.write, h]

/-- `row` and `fill` are one cursor. -/
theorem scatterPairs_entry (row : ℕ → ℕ) (ps : List (Pair K natoms)) (fill : ℕ → ℕ) (b : Buffers K) :
    (scatterPairs row (fill, b) ps).2.entry =
      (place (fun k => row k + fill k) b.entry (ps.map fun p => (p.i, p.neighbor))).2 := by
  induction ps generalizing fill b with
  | nil => rfl
  | cons p ps ih =>
    have hcursor : (fun k => row k + Function.update fill p.i (fill p.i + 1) k) =
        Function.update (fun k => row k + fill k) p.i (row p.i + fill p.i + 1) := by
      funext k
      by_cases h : k = p.i
      · subst h
        simp [Nat.add_assoc]
      · simp [h]
    have := ih (Function.update fill p.i (fill p.i + 1)) (b.write (row p.i + fill p.i) p)
    rw [hcursor, entry_write] at this
    exact this

end Sorts

section Build
variable (t : NeighborTable K) (nl : List (Pair K natoms)) (heap : Heap K)

theorem map_i_pos : ∀ k ∈ (kept nl).map Pair.i, 1 ≤ k := by
  intro k hk
  obtain ⟨p, -, rfl⟩ := List.mem_map.mp hk
  exact p.i_pos

theorem map_j_pos : ∀ k ∈ (kept nl).map Pair.j, 1 ≤ k := by
  intro k hk
  obtain ⟨p, -, rfl⟩ := List.mem_map.mp hk
  exact p.j_pos

theorem build_row {k : ℕ} (h1 : 1 ≤ k) (hk : k ≤ natoms + 1) :
    (t.build nl heap).row k = starts ((kept nl).map Pair.i) (natoms + 1) k + 1 := by
  simp only [NeighborTable.build, countPairs_eq]
  exact prefixSum_eq (map_i_pos nl) h1 hk

theorem build_nkept : (t.build nl heap).row (natoms + 1) - 1 = (kept nl).length := by
  rw [build_row t nl heap (by omega) le_rfl, starts_last, List.length_map, Nat.add_sub_cancel]
  intro k hk
  obtain ⟨p, -, rfl⟩ := List.mem_map.mp hk
  exact p.i_lt

/-- The entries of the kept pairs in ascending j, under their owners. -/
def ownerItems : List (ℕ × Neighbor K) :=
  (byKey Pair.j (natoms + 1) (kept nl)).map fun p => (p.i, p.neighbor)

theorem byPartner_perm : (byKey Pair.j (natoms + 1) (kept nl)).Perm (kept nl) :=
  byKey_perm fun p _ => p.j_lt

theorem ownerItems_lt : ∀ x ∈ ownerItems nl, x.1 < natoms + 1 := by
  intro x hx
  obtain ⟨p, -, rfl⟩ := List.mem_map.mp hx
  exact p.i_lt

theorem starts_ownerItems {k : ℕ} (hk : k ≤ natoms + 1) :
    starts ((ownerItems nl).map Prod.fst) (natoms + 1) k =
      starts ((kept nl).map Pair.i) (natoms + 1) k := by
  rw [starts_eq_countP _ hk, starts_eq_countP _ hk, ownerItems, List.map_map]
  exact ((byPartner_perm nl).map Pair.i).countP_eq _

theorem count_ownerItems (k : ℕ) :
    ((ownerItems nl).map Prod.fst).count k = ((kept nl).map Pair.i).count k := by
  rw [ownerItems, List.map_map]
  exact ((byPartner_perm nl).map Pair.i).count_eq k

theorem length_ownerItems : (ownerItems nl).length = (kept nl).length := by
  rw [ownerItems, List.length_map, (byPartner_perm nl).length_eq]

theorem extent_scatterPairs (row : ℕ → ℕ) (ps : List (Pair K natoms)) (fill : ℕ → ℕ)
    (b : Buffers K) : (scatterPairs row (fill, b) ps).2.extent = b.extent := by
  induction ps generalizing fill b with
  | nil => rfl
  | cons p ps ih => exact ih _ _

theorem le_extent_reserve (buffers : Option (Buffers K)) (nkept : ℕ) :
    nkept ≤ (reserve buffers nkept heap).extent := by
  cases buffers with
  | none => exact Nat.le_max_left _ _
  | some b =>
    rw [reserve]
    split
    · exact Nat.le_max_left _ _
    · omega

/-- After a build the buffers hold the owners' sort of the partners' sort. -/
theorem build_buffers : ∃ b b₀ start, (t.build nl heap).buffers = some b ∧
    (kept nl).length ≤ b.extent ∧ b.entry = (place start b₀ (ownerItems nl)).2 ∧
    ∀ x ∈ ownerItems nl,
      start x.1 = starts ((ownerItems nl).map Prod.fst) (natoms + 1) x.1 + 1 := by
  have hnkept := build_nkept t nl heap
  have hrow : ∀ k, 1 ≤ k → k ≤ natoms + 1 → _ := fun k => build_row t nl heap (k := k)
  have hpartners : (List.range' 1 (kept nl).length).map (groupByPartner nl
      (prefixSum (countPairs nl).2 (natoms + 1)) heap.byJ).2 =
        (byKey Prod.fst (natoms + 1) (partnerItems nl)).map Prod.snd := by
    have hlt : ∀ x ∈ partnerItems nl, x.1 < natoms + 1 := by
      intro x hx
      obtain ⟨y, -, rfl⟩ := List.mem_map.mp hx
      exact y.1.j_lt
    rw [groupByPartner_eq, ← length_partnerItems, countPairs_eq]
    apply map_place_one hlt
    intro x hx
    have hpos : 1 ≤ x.1 := by
      obtain ⟨y, -, rfl⟩ := List.mem_map.mp hx
      exact y.1.j_pos
    rw [map_fst_partnerItems]
    exact prefixSum_eq (map_j_pos nl) hpos (hlt x hx).le
  simp only [NeighborTable.build] at hnkept hrow ⊢
  rw [hnkept, scatter_eq, hpartners, lookup_partnerItems]
  refine ⟨_, _, _, rfl, ?_, scatterPairs_entry _ _ _ _, ?_⟩
  · rw [extent_scatterPairs]
    exact le_extent_reserve heap t.buffers _
  · intro x hx
    have hpos : 1 ≤ x.1 := by
      obtain ⟨p, -, rfl⟩ := List.mem_map.mp hx
      exact p.i_pos
    have hlt := (ownerItems_lt nl x hx).le
    rw [starts_ownerItems nl hlt]
    exact hrow x.1 hpos hlt

theorem build_sequence : (t.build nl heap).sequence =
    (byKey Pair.i (natoms + 1) (byKey Pair.j (natoms + 1) (kept nl))).map Pair.neighbor := by
  obtain ⟨b, b₀, start, hb, -, hentry, hstart⟩ := build_buffers t nl heap
  have hnatoms : (t.build nl heap).natoms = natoms := rfl
  rw [NeighborTable.sequence, NeighborTable.entries, hb, hnatoms, build_nkept]
  simp only
  rw [hentry, ← length_ownerItems, map_place_one (ownerItems_lt nl) hstart, ownerItems, byKey_map,
    List.map_map]
  rfl

/-- The slice of atom `i` holds its kept pairs in ascending j. -/
theorem build_slice {i : ℕ} (h1 : 1 ≤ i) (hi : i ≤ natoms) : (t.build nl heap).slice i =
    ((byKey Pair.j (natoms + 1) (kept nl)).filter fun p => p.i = i).map Pair.neighbor := by
  obtain ⟨b, b₀, start, hb, -, hentry, hstart⟩ := build_buffers t nl heap
  have hlt : i < natoms + 1 := by omega
  have hrow := build_row t nl heap h1 hlt.le
  have hnext := build_row t nl heap (show 1 ≤ i + 1 by omega) (show i + 1 ≤ natoms + 1 by omega)
  rw [starts_succ _ hlt] at hnext
  have hcount : (t.build nl heap).countFor i = ((kept nl).map Pair.i).count i := by
    rw [NeighborTable.countFor]
    omega
  rw [NeighborTable.slice, NeighborTable.entries, hb, hcount, hrow]
  simp only
  rw [hentry, ← starts_ownerItems nl hlt.le, ← count_ownerItems,
    row_place_one (ownerItems_lt nl) hlt hstart, bucket, ownerItems, List.filter_map, List.map_map]
  rfl

end Build

/-- The reported pairs of atom `i` with a different partner. -/
def neighborsOf (nl : List (Pair K natoms)) (i : ℕ) : List (Neighbor K) :=
  (nl.filter fun p => p.i = i ∧ p.j ≠ i).map Pair.neighbor

/-- A table lists the reported pairs: each once in its owner's slice, partners ascending. -/
structure FullList (t : NeighborTable K) (nl : List (Pair K natoms)) : Prop where
  row_one : t.row 1 = 1
  row_le : ∀ i, 1 ≤ i → i ≤ natoms → t.row i ≤ t.row (i + 1)
  slice_perm : ∀ i, 1 ≤ i → i ≤ natoms → (t.slice i).Perm (neighborsOf nl i)
  ascending : ∀ i, 1 ≤ i → i ≤ natoms → (t.slice i).Pairwise fun a b => a.idx ≤ b.idx
  extent : ∃ b, t.buffers = some b ∧ t.row (natoms + 1) - 1 ≤ b.extent

/-- All images of one partner that were reported are alike. -/
def OneImage (nl : List (Pair K natoms)) : Prop :=
  ∀ p ∈ nl, ∀ q ∈ nl, p.i = q.i → p.j = q.j → p.i ≠ p.j →
    p.vector = q.vector ∧ p.distance = q.distance

section Canonical
variable {nl nl' : List (Pair K natoms)}

theorem build_fullList (t : NeighborTable K) (nl : List (Pair K natoms)) (heap : Heap K) :
    FullList (t.build nl heap) nl where
  row_one := by
    have hfirst : ((kept nl).map Pair.i).countP (· < 1) = 0 := by
      apply List.countP_eq_zero.mpr
      intro k hk
      have := map_i_pos nl k hk
      simp only [decide_eq_true_eq]
      omega
    rw [build_row t nl heap le_rfl (by omega), starts_eq_countP _ (by omega), hfirst]
  row_le := by
    intro i h1 hi
    rw [build_row t nl heap h1 (by omega), build_row t nl heap (by omega) (by omega)]
    have hle : i + 1 ≤ natoms + 1 := by omega
    exact Nat.succ_le_succ (starts_mono _ (Nat.le_succ i) hle)
  slice_perm := by
    intro i h1 hi
    rw [build_slice t nl heap h1 hi, neighborsOf]
    refine (((byPartner_perm nl).filter _).map _).trans (List.Perm.of_eq ?_)
    rw [kept, List.filter_filter]
    congr 1
    apply List.filter_congr
    intro p _
    by_cases h : p.i = i
    · simp [h, eq_comm]
    · simp [h]
  ascending := by
    intro i h1 hi
    rw [build_slice t nl heap h1 hi, List.pairwise_map]
    exact (byKey_ascending Pair.j (natoms + 1) (kept nl)).filter _
  extent := by
    obtain ⟨b, -, -, hb, hextent, -⟩ := build_buffers t nl heap
    exact ⟨b, hb, (build_nkept t nl heap).trans_le hextent⟩

theorem Pair.eq_of_same_image {p q : Pair K natoms} (hi : p.i = q.i) (hj : p.j = q.j)
    (hv : p.vector = q.vector) (hd : p.distance = q.distance) : p = q := by
  cases p
  cases q
  simp only [Pair.i, Pair.j, Nat.add_right_cancel_iff, Fin.val_inj] at hi hj hv hd
  subst hi hj hv hd
  rfl

/-- The order of the entries is fixed where images are alike. -/
theorem order_eq (h : OneImage nl) (hp : nl'.Perm nl) :
    byKey Pair.i (natoms + 1) (byKey Pair.j (natoms + 1) (kept nl')) =
      byKey Pair.i (natoms + 1) (byKey Pair.j (natoms + 1) (kept nl)) := by
  have hkept : (kept nl').Perm (kept nl) := hp.filter _
  have hmem : ∀ l : List (Pair K natoms), ∀ p,
      p ∈ byKey Pair.i (natoms + 1) (byKey Pair.j (natoms + 1) (kept l)) → p ∈ l ∧ p.i ≠ p.j := by
    intro l p hpm
    have := (mem_byKey.mp (mem_byKey.mp hpm).1).1
    rw [kept, List.mem_filter] at this
    exact ⟨this.1, of_decide_eq_true this.2⟩
  have hperm : ∀ l : List (Pair K natoms),
      (byKey Pair.i (natoms + 1) (byKey Pair.j (natoms + 1) (kept l))).Perm (kept l) :=
    fun l => (byKey_perm fun p _ => p.i_lt).trans (byPartner_perm l)
  have hsorted : ∀ l : List (Pair K natoms),
      (byKey Pair.i (natoms + 1) (byKey Pair.j (natoms + 1) (kept l))).Pairwise
        fun a b => a.i < b.i ∨ a.i = b.i ∧ a.j ≤ b.j :=
    fun l => pairwise_byKey Pair.i _ (byKey_ascending Pair.j _ _)
  refine List.Perm.eq_of_pairwise ?_ (hsorted nl') (hsorted nl)
    ((hperm nl').trans (hkept.trans (hperm nl).symm))
  intro p q hpm hqm hpq hqp
  have hij : p.i = q.i ∧ p.j = q.j := by omega
  obtain ⟨hpl, hself⟩ := hmem nl' p hpm
  obtain ⟨hv, hd⟩ := h p (hp.mem_iff.mp hpl) q (hmem nl q hqm).1 hij.1 hij.2 hself
  exact Pair.eq_of_same_image hij.1 hij.2 hv hd

theorem exists_perm_cons {l : List (Pair K natoms)} {p : Pair K natoms} (h : p ∈ l) :
    ∃ rest, l.Perm (p :: rest) := by
  obtain ⟨s, t, rfl⟩ := List.mem_iff_append.mp h
  exact ⟨s ++ t, List.perm_middle⟩

/-- The pairs of one owner and one partner come out in the order in which they were reported. -/
theorem images_eq {l l' : List (Pair K natoms)} (hp : l.Perm l')
    (h : (byKey Pair.i (natoms + 1) (byKey Pair.j (natoms + 1) (kept l))).map Pair.neighbor =
      (byKey Pair.i (natoms + 1) (byKey Pair.j (natoms + 1) (kept l'))).map Pair.neighbor)
    (p : Pair K natoms) :
    (((kept l).filter fun x => x.j = p.j).filter fun x => x.i = p.i).map Pair.neighbor =
      (((kept l').filter fun x => x.j = p.j).filter fun x => x.i = p.i).map Pair.neighbor := by
  have hkept : (kept l).Perm (kept l') := hp.filter _
  have howner := map_filter_eq_of_byKey
    ((byPartner_perm l).trans (hkept.trans (byPartner_perm l').symm)) h p.i_lt
  have himages : ∀ l : List (Pair K natoms),
      (((byKey Pair.j (natoms + 1) (kept l)).filter fun x => x.i = p.i).map Pair.neighbor).filter
        (fun n => n.idx = p.j) =
      (((kept l).filter fun x => x.j = p.j).filter fun x => x.i = p.i).map Pair.neighbor := by
    intro l
    rw [← filter_byKey (f := Pair.j) p.j_lt (kept l), List.filter_comm, List.filter_map]
    rfl
  rw [← himages l, ← himages l', howner]

/-- Two different images of one partner show the order of the report. -/
theorem oneImage_of_sequence_eq {nl : List (Pair K natoms)}
    (h : ∀ nl', nl'.Perm nl → ∀ (t t' : NeighborTable K) heap heap',
      (t'.build nl' heap').sequence = (t.build nl heap).sequence) : OneImage nl := by
  intro p hp q hq hi hj hself
  by_contra hne
  have hneighbor : p.neighbor ≠ q.neighbor := by
    intro heq
    exact hne ⟨congrArg Neighbor.vec heq, congrArg Neighbor.dist heq⟩
  have hqp : q ≠ p := by
    rintro rfl
    exact hneighbor rfl
  obtain ⟨rest, hrest⟩ := exists_perm_cons hp
  have hqrest : q ∈ rest := (List.mem_cons.mp (hrest.mem_iff.mp hq)).resolve_left hqp
  obtain ⟨rest', hrest'⟩ := exists_perm_cons hqrest
  have hpfirst : (p :: q :: rest').Perm nl := (hrest.trans (hrest'.cons p)).symm
  have hqfirst : (q :: p :: rest').Perm nl := (List.Perm.swap p q rest').trans hpfirst
  let t : NeighborTable K := ⟨0, fun _ => 0, none⟩
  let heap : Heap K := ⟨fun _ => 0, fun _ => 0, fun _ => p.vector, fun _ => p.distance⟩
  have hsame := (h _ hpfirst t t heap heap).trans (h _ hqfirst t t heap heap).symm
  rw [build_sequence, build_sequence] at hsame
  have himages := images_eq (hpfirst.trans hqfirst.symm) hsame p
  have hselfq : q.i ≠ q.j := by omega
  simp only [kept, List.filter_cons, ne_eq, hselfq, not_false_eq_true, decide_true, if_true, hi, hj,
    List.map_cons, List.cons.injEq] at himages
  exact hneighbor himages.1

/-- A build lists every reported pair of different atoms once, owner by owner, partners ascending; the
order of the report shows exactly where two images of one partner differ. -/
theorem build_canonical_iff (nl : List (Pair K natoms)) :
    (∀ (t : NeighborTable K) heap, FullList (t.build nl heap) nl) ∧
    ((∀ nl', nl'.Perm nl → ∀ (t t' : NeighborTable K) heap heap',
      (t'.build nl' heap').sequence = (t.build nl heap).sequence) ↔ OneImage nl) := by
  refine ⟨fun t heap => build_fullList t nl heap, oneImage_of_sequence_eq, ?_⟩
  intro h nl' hp t t' heap heap'
  rw [build_sequence, build_sequence, order_eq h hp]

/-- Two atoms one apart along a periodic axis of three: at the cutoff 2.5 each sees the other twice. -/
def twoImages : List (Pair ℚ 2) :=
  [⟨0, 1, ![1, 0, 0], 1⟩, ⟨0, 1, ![-2, 0, 0], 2⟩, ⟨1, 0, ![-1, 0, 0], 1⟩, ⟨1, 0, ![2, 0, 0], 2⟩]

theorem not_build_canonical : ¬ ∀ nl', nl'.Perm twoImages → ∀ (t t' : NeighborTable ℚ) heap heap',
    (t'.build nl' heap').sequence = (t.build twoImages heap).sequence := by
  intro h
  have hone := oneImage_of_sequence_eq h ⟨0, 1, ![1, 0, 0], 1⟩ (by simp [twoImages])
    ⟨0, 1, ![-2, 0, 0], 2⟩ (by simp [twoImages]) rfl rfl (by simp [Pair.i, Pair.j])
  norm_num at hone

end Canonical
end Rgpot.Fortran
