import Rgpot.Lib.FloatOrder
import Rgpot.Lib.SortContract

/-! The edges a UMA model is given: vesin's pairs, sorted, and the nearest of each center kept. -/
namespace Rgpot.Uma
open BinaryFormat

/-- A distance, a finite double. -/
abbrev Distance : Type := Magnitude double

/-- `1e-8` in units of the format. -/
def tiny : ℚ := 2 ^ double.bias / 10 ^ 8

theorem tiny_nonneg : 0 ≤ tiny := by
  unfold tiny
  positivity

theorem tiny_le : tiny ≤ (2 ^ double.bias : ℕ) := by
  rw [Nat.cast_pow, Nat.cast_ofNat]
  exact div_le_self (by positivity) (by norm_num)

/-- The double that the source writes as `1e-8`. -/
def shortest : Distance := ⟨double.round tiny, representable_round tiny_nonneg tiny_le⟩

/-- A pair of vesin's full list: `pairs[k]`, `shifts[k]` and the distance, reported or computed from
them. -/
structure VesinPair (nAtoms : ℕ) where
  center : Fin nAtoms
  neighbor : Fin nAtoms
  shift : Fin 3 → ℤ
  distance : Distance

structure Cand where
  n : ℕ
  c : ℕ
  s0 : ℤ
  s1 : ℤ
  s2 : ℤ
  dist : Distance
  deriving DecidableEq

/-- `static_cast<float>` of an image count, in units of the format. -/
def toFloat (s : ℤ) : ℤ := single.ofInt s

def VesinPair.cand {nAtoms : ℕ} (p : VesinPair nAtoms) : Cand :=
  ⟨p.neighbor, p.center, toFloat (p.shift 0), toFloat (p.shift 1), toFloat (p.shift 2), p.distance⟩

/-- Total order on (center, distance, neighbor, shift). -/
def candLess (a b : Cand) : Bool :=
  if a.c ≠ b.c then a.c < b.c
  else if a.dist ≠ b.dist then a.dist < b.dist
  else if a.n ≠ b.n then a.n < b.n
  else if a.s0 ≠ b.s0 then a.s0 < b.s0
  else if a.s1 ≠ b.s1 then a.s1 < b.s1
  else a.s2 < b.s2

/-- The comparator of a center's sort, on indices into `keep`. -/
def closer (keep : List Cand) (a b : Fin keep.length) : Bool := (keep.get a).dist < (keep.get b).dist

structure EdgeList where
  neighbor : List ℕ
  center : List ℕ
  offsets : List ℤ
  deriving DecidableEq

def EdgeList.ofCands (keep : List Cand) : EdgeList :=
  ⟨keep.map Cand.n, keep.map Cand.c, keep.flatMap fun c => [c.s0, c.s1, c.s2]⟩

/-- `static_cast<int>` of a size. -/
def castInt (size : ℕ) : ℤ := Int.bmod size (2 ^ 32)

/-- The sorting routines of the two calls. -/
structure Sorts where
  cands : SortRoutine candLess
  closest : ∀ keep, SortRoutine (closer keep)

/-- `by_center[c]`. -/
def byCenter (keep : List Cand) (c : ℕ) : List (Fin keep.length) :=
  (List.finRange keep.length).filter fun k => (keep.get k).c = c

/-- `idxs.resize(max_neighbors)` for an index list that is longer. -/
def resize {α : Type} (idxs : List α) (maxNeighbors : ℤ) : List α :=
  if castInt idxs.length > maxNeighbors then idxs.take maxNeighbors.toNat else idxs

/-- The kept candidates of one center. -/
def trimmed (sorts : Sorts) (keep : List Cand) (maxNeighbors : ℤ) (c : ℕ) : List Cand :=
  (resize ((sorts.closest keep).sort (byCenter keep c)) maxNeighbors).map keep.get

def vesinFairchemEdges {nAtoms : ℕ} (sorts : Sorts) (nl : Except (Option String) (List (VesinPair nAtoms)))
    (maxNeighbors : ℤ) : Except String EdgeList :=
  match nl with
  | .error none => .error "UmaPot: vesin_neighbors failed"
  | .error (some err) => .error ("UmaPot: vesin_neighbors failed" ++ ": " ++ err)
  | .ok pairs =>
    let keep := (pairs.filter fun p => ¬ p.distance < shortest).map VesinPair.cand
    let keep := sorts.cands.sort keep
    let keep := if maxNeighbors > 0 then
      (List.range nAtoms).flatMap (trimmed sorts keep maxNeighbors) else keep
    .ok (EdgeList.ofCands keep)

section Tiny
variable (k : ℕ)

theorem floor_scaled : ⌊(2 : ℚ) ^ 79 / 10 ^ 8⌋₊ = 6044629098073145 := by
  rw [Nat.floor_eq_iff (by positivity)]
  norm_num

theorem step_tiny : double.step (2 ^ (79 + k) / 10 ^ 8) = k := by
  have hpow : (0 : ℚ) < 2 ^ k := by positivity
  have hsplit : (2 : ℚ) ^ (79 + k) / 10 ^ 8 = 2 ^ 79 / 10 ^ 8 * 2 ^ k := by
    rw [pow_add]
    ring
  have hlow : 2 ^ (52 + k) ≤ ⌊(2 : ℚ) ^ (79 + k) / 10 ^ 8⌋₊ := by
    rw [Nat.le_floor_iff (by positivity), hsplit]
    push_cast
    rw [pow_add]
    exact mul_le_mul_of_nonneg_right (by norm_num) hpow.le
  have hhigh : ⌊(2 : ℚ) ^ (79 + k) / 10 ^ 8⌋₊ < 2 ^ (52 + k + 1) := by
    rw [Nat.floor_lt (by positivity), hsplit]
    push_cast
    rw [show 52 + k + 1 = 53 + k by omega, pow_add]
    exact mul_lt_mul_of_pos_right (by norm_num) hpow
  have hlog : Nat.log2 ⌊(2 : ℚ) ^ (79 + k) / 10 ^ 8⌋₊ = 52 + k := by
    rw [Nat.log2_eq_log_two]
    exact Nat.log_eq_of_pow_le_of_lt_pow hlow hhigh
  rw [step, hlog]
  exact Nat.add_sub_cancel_left 52 k

theorem round_tiny : double.round (2 ^ (79 + k) / 10 ^ 8) = 6044629098073146 * 2 ^ k := by
  have hscaled : (2 : ℚ) ^ (79 + k) / 10 ^ 8 / 2 ^ k = 2 ^ 79 / 10 ^ 8 := by
    rw [pow_add]
    field_simp
  have hup : roundHalfEven ((2 : ℚ) ^ 79 / 10 ^ 8) = 6044629098073146 := by
    unfold roundHalfEven
    simp only [floor_scaled]
    norm_num
  rw [BinaryFormat.round, step_tiny, hscaled, hup]

/-- The literal is rounded up. -/
theorem lt_round_tiny : tiny < double.round tiny := by
  have htiny : tiny = 2 ^ (79 + 995) / 10 ^ 8 := rfl
  have hpow : (0 : ℚ) < 2 ^ 995 := by positivity
  rw [htiny, round_tiny, Nat.cast_mul, Nat.cast_pow, Nat.cast_ofNat, pow_add, mul_div_right_comm]
  exact mul_lt_mul_of_pos_right (by norm_num) hpow

/-- The test of the loop drops exactly the pairs that are not longer than 1e-8. -/
theorem lt_shortest_iff (d : Distance) : ¬ d < shortest ↔ tiny < (d : ℕ) := by
  rw [lt_iff_round_le tiny_nonneg lt_round_tiny d, not_lt]
  exact Iff.rfl

end Tiny

/-! The edges the comparators ask for. -/

/-- What a result shows of a candidate. -/
structure Edge where
  neighbor : ℕ
  center : ℕ
  offset0 : ℤ
  offset1 : ℤ
  offset2 : ℤ
  deriving DecidableEq

def Cand.edge (c : Cand) : Edge := ⟨c.n, c.c, c.s0, c.s1, c.s2⟩

section Canonical
variable {nAtoms : ℕ}

/-- The pairs of one center that are longer than 1e-8. -/
def longPairs (pairs : List (VesinPair nAtoms)) (c : ℕ) : List (VesinPair nAtoms) :=
  pairs.filter fun p => p.center = c ∧ tiny < (p.distance : ℕ)

/-- Distance, then neighbor, then shift. -/
def VesinPair.key (p : VesinPair nAtoms) : Distance ×ₗ ℕ ×ₗ ℤ ×ₗ ℤ ×ₗ ℤ :=
  toLex (p.distance, toLex ((p.neighbor : ℕ), toLex (p.shift 0, toLex (p.shift 1, p.shift 2))))

/-- The edges of one center in the total order. -/
def orderedPairs (pairs : List (VesinPair nAtoms)) (c : ℕ) : List (VesinPair nAtoms) :=
  (longPairs pairs c).mergeSort fun p q => p.key ≤ q.key

/-- The first `max_neighbors` edges of each center: a function of the set of pairs. -/
def canonicalEdges (pairs : List (VesinPair nAtoms)) (maxNeighbors : ℤ) : EdgeList :=
  EdgeList.ofCands ((List.range nAtoms).flatMap fun c =>
    ((orderedPairs pairs c).take maxNeighbors.toNat).map VesinPair.cand)

/-- Ties that reach the first `max_neighbors` edges of their center are between like edges, and no
center has so many edges that their number is no `int`. -/
structure Reproducible (pairs : List (VesinPair nAtoms)) (maxNeighbors : ℤ) : Prop where
  length : ∀ c < nAtoms, maxNeighbors < (longPairs pairs c).length →
    maxNeighbors < castInt (longPairs pairs c).length
  ties : ∀ c < nAtoms, ∀ p ∈ longPairs pairs c, ∀ q ∈ longPairs pairs c, p.distance = q.distance →
    ((longPairs pairs c).countP fun x => x.distance < p.distance) < maxNeighbors →
    p.cand.edge = q.cand.edge

end Canonical

section Keys

def Cand.key (a : Cand) : ℕ ×ₗ Distance ×ₗ ℕ ×ₗ ℤ ×ₗ ℤ ×ₗ ℤ :=
  toLex (a.c, toLex (a.dist, toLex (a.n, toLex (a.s0, toLex (a.s1, a.s2)))))

theorem candLess_iff (a b : Cand) : candLess a b = true ↔ a.key < b.key := by
  simp only [Cand.key, Prod.Lex.toLex_lt_toLex]
  unfold candLess
  split
  · rename_i h
    simp [h]
  · rename_i hc
    rw [not_not] at hc
    split
    · rename_i h
      simp [hc, h]
    · rename_i hdist
      rw [not_not] at hdist
      split
      · rename_i h
        simp [hc, hdist, h]
      · rename_i hn
        rw [not_not] at hn
        split
        · rename_i h
          simp [hc, hdist, hn, h]
        · rename_i h0
          rw [not_not] at h0
          split
          · rename_i h
            simp [hc, hdist, hn, h0, h]
          · rename_i h1
            rw [not_not] at h1
            simp [hc, hdist, hn, h0, h1]

end Keys

section Blocks
variable {nAtoms : ℕ} {sorts : Sorts} {pairs nl : List (VesinPair nAtoms)} {m : ℤ}

/-- The sorted candidates of a report. -/
def kept (sorts : Sorts) (nl : List (VesinPair nAtoms)) : List Cand :=
  sorts.cands.sort ((nl.filter fun p => ¬ p.distance < shortest).map VesinPair.cand)

theorem vesinFairchemEdges_eq (hm : 0 < m) : vesinFairchemEdges sorts (.ok nl) m =
    .ok (EdgeList.ofCands ((List.range nAtoms).flatMap (trimmed sorts (kept sorts nl) m))) := by
  simp only [vesinFairchemEdges, if_pos hm]
  rfl

theorem map_get_byCenter (keep : List Cand) (c : ℕ) :
    (byCenter keep c).map keep.get = keep.filter fun a => a.c = c := by
  have hall : (List.finRange keep.length).map keep.get = keep := by
    rw [← List.ofFn_eq_map, List.ofFn_get]
  conv_rhs => rw [← hall, List.filter_map]
  rfl

/-- The candidates of one center are its long pairs. -/
theorem kept_perm (sorts : Sorts) (hp : nl.Perm pairs) (c : ℕ) :
    ((kept sorts nl).filter fun a => a.c = c).Perm ((longPairs pairs c).map VesinPair.cand) := by
  refine ((sorts.cands.perm _).filter _).trans ?_
  rw [List.filter_map, List.filter_filter]
  refine ((hp.filter _).map _).trans (List.Perm.of_eq ?_)
  congr 1
  apply List.filter_congr
  intro p _
  rw [Bool.eq_iff_iff]
  simp only [Bool.and_eq_true, decide_eq_true_eq, lt_shortest_iff]
  exact and_congr_left fun _ => decide_eq_true_iff

/-- A center's sorted candidates. -/
def closestOf (sorts : Sorts) (keep : List Cand) (c : ℕ) : List Cand :=
  ((sorts.closest keep).sort (byCenter keep c)).map keep.get

theorem resize_map {α β : Type} (f : α → β) (l : List α) (m : ℤ) :
    (resize l m).map f = resize (l.map f) m := by
  unfold resize
  rw [List.length_map]
  split
  · exact List.map_take
  · rfl

theorem trimmed_eq (keep : List Cand) (c : ℕ) :
    trimmed sorts keep m c = resize (closestOf sorts keep c) m := resize_map _ _ m

theorem closestOf_perm (sorts : Sorts) (hp : nl.Perm pairs) (c : ℕ) :
    (closestOf sorts (kept sorts nl) c).Perm ((longPairs pairs c).map VesinPair.cand) := by
  refine (((sorts.closest _).perm _).map _).trans ?_
  rw [map_get_byCenter]
  exact kept_perm sorts hp c

theorem closestOf_ordered (keep : List Cand) (c : ℕ) :
    (closestOf sorts keep c).Pairwise fun a b => a.dist ≤ b.dist := by
  rw [closestOf, List.pairwise_map]
  have hkey : ∀ a b, closer keep a b = true ↔ (keep.get a).dist < (keep.get b).dist :=
    fun a b => decide_eq_true_iff
  exact (sorts.closest keep).key_ordered hkey _

theorem orderedPairs_ordered (pairs : List (VesinPair nAtoms)) (c : ℕ) :
    (orderedPairs pairs c).Pairwise fun p q => p.distance ≤ q.distance := by
  have hkey : (orderedPairs pairs c).Pairwise fun p q => p.key ≤ q.key := by
    have hless : ∀ p q : VesinPair nAtoms, decide (p.key < q.key) = true → p.key < q.key :=
      fun _ _ => of_decide_eq_true
    have h := (SortRoutine.ofKey VesinPair.key hless).ordered (longPairs pairs c)
    refine h.imp ?_
    intro p q hqp
    exact not_lt.mp (of_decide_eq_false hqp)
  refine hkey.imp ?_
  intro p q h
  simp only [VesinPair.key, Prod.Lex.toLex_le_toLex] at h
  rcases h with h | ⟨h, -⟩
  · exact h.le
  · exact h.le

theorem orderedPairs_perm (pairs : List (VesinPair nAtoms)) (c : ℕ) :
    (orderedPairs pairs c).Perm (longPairs pairs c) := List.mergeSort_perm _ _

theorem resize_eq_take {α : Type} {l : List α} (hm : 0 < m)
    (h : m < l.length → m < castInt l.length) : resize l m = l.take m.toNat := by
  unfold resize
  split
  · rfl
  · rename_i hle
    rw [List.take_of_length_le]
    have : ¬ m < l.length := fun hlt => hle (h hlt)
    omega

/-- Where ties are alike the order of the sorts does not show. -/
theorem trimmed_edges (hm : 0 < m) (h : Reproducible pairs m) (hp : nl.Perm pairs) {c : ℕ}
    (hc : c < nAtoms) : (trimmed sorts (kept sorts nl) m c).map Cand.edge =
      (((orderedPairs pairs c).take m.toNat).map VesinPair.cand).map Cand.edge := by
  have hperm := closestOf_perm sorts hp c
  have hlength := hperm.length_eq
  rw [List.length_map] at hlength
  rw [trimmed_eq, resize_eq_take hm, List.map_take (f := VesinPair.cand)]
  · refine (SortedByKey.take_map_eq ?_ ?_ (closestOf_ordered _ c) ?_).symm
    · exact ((orderedPairs_perm pairs c).map _).trans hperm.symm
    · exact List.pairwise_map.mpr (orderedPairs_ordered pairs c)
    · intro a ha b hb hdist hbefore
      obtain ⟨p, hpm, rfl⟩ := List.mem_map.mp ha
      obtain ⟨q, hqm, rfl⟩ := List.mem_map.mp hb
      have hpl := (orderedPairs_perm pairs c).mem_iff.mp hpm
      have hql := (orderedPairs_perm pairs c).mem_iff.mp hqm
      apply h.ties c hc p hpl q hql hdist
      rw [List.countP_map, (orderedPairs_perm pairs c).countP_eq] at hbefore
      have : (longPairs pairs c).countP (fun x => x.distance < p.distance) < m.toNat := hbefore
      omega
  · rw [hlength]
    exact h.length c hc

theorem offsets_eq_iff (a b : List Cand) (h : EdgeList.ofCands a = EdgeList.ofCands b) :
    a.map Cand.edge = b.map Cand.edge := by
  simp only [EdgeList.ofCands, EdgeList.mk.injEq] at h
  obtain ⟨hn, hc, ho⟩ := h
  induction a generalizing b with
  | nil =>
    cases b with
    | nil => rfl
    | cons y b => simp at hn
  | cons x a ih =>
    cases b with
    | nil => simp at hn
    | cons y b =>
      simp only [List.map_cons, List.cons.injEq, List.flatMap_cons, List.cons_append,
        List.nil_append] at hn hc ho
      rw [List.map_cons, List.map_cons, ih b hn.2 hc.2 ho.2.2.2]
      simp only [Cand.edge, hn.1, hc.1, ho.1, ho.2.1, ho.2.2.1]

theorem ofCands_congr {a b : List Cand} (h : a.map Cand.edge = b.map Cand.edge) :
    EdgeList.ofCands a = EdgeList.ofCands b := by
  have hn := congrArg (List.map Edge.neighbor) h
  have hc := congrArg (List.map Edge.center) h
  have ho := congrArg (List.flatMap fun e : Edge => [e.offset0, e.offset1, e.offset2]) h
  rw [List.map_map, List.map_map] at hn hc
  rw [List.flatMap_map, List.flatMap_map] at ho
  exact EdgeList.mk.injEq .. ▸ ⟨hn, hc, ho⟩

theorem filter_blocks {f : ℕ → List Edge} (hf : ∀ k, ∀ e ∈ f k, e.center = k) {n c : ℕ}
    (hc : c < n) : ((List.range n).flatMap f).filter (fun e => e.center = c) = f c := by
  have hother : ∀ k, k ≠ c → (f k).filter (fun e => e.center = c) = [] := by
    intro k hk
    apply List.filter_eq_nil_iff.mpr
    intro e he
    rw [hf k e he, decide_eq_true_eq]
    exact hk
  have hnone : ∀ n ≤ c, ((List.range n).flatMap f).filter (fun e => e.center = c) = [] := by
    intro n hn
    apply List.filter_eq_nil_iff.mpr
    intro e he
    obtain ⟨k, hk, hek⟩ := List.mem_flatMap.mp he
    have := List.mem_range.mp hk
    rw [hf k e hek, decide_eq_true_eq]
    omega
  have hown : (f c).filter (fun e => e.center = c) = f c := by
    apply List.filter_eq_self.mpr
    intro e he
    exact decide_eq_true (hf c e he)
  induction n, hc using Nat.le_induction with
  | base =>
    rw [List.range_succ, List.flatMap_append, List.filter_append, hnone c le_rfl, List.nil_append,
      List.flatMap_singleton, hown]
  | succ n hn ih =>
    rw [List.range_succ, List.flatMap_append, List.filter_append, ih, List.flatMap_singleton,
      hother n (by omega), List.append_nil]

theorem trimmed_center (keep : List Cand) (k : ℕ) :
    ∀ e ∈ (trimmed sorts keep m k).map Cand.edge, e.center = k := by
  intro e he
  obtain ⟨a, ha, rfl⟩ := List.mem_map.mp he
  obtain ⟨id, hid, rfl⟩ := List.mem_map.mp ha
  have hmem : id ∈ byCenter keep k := by
    apply ((sorts.closest keep).perm _).mem_iff.mp
    unfold resize at hid
    split at hid
    · exact List.mem_of_mem_take hid
    · exact hid
  exact of_decide_eq_true (List.mem_filter.mp hmem).2

theorem orderedPairs_center (pairs : List (VesinPair nAtoms)) (k : ℕ) :
    ∀ e ∈ (((orderedPairs pairs k).take m.toNat).map VesinPair.cand).map Cand.edge,
      e.center = k := by
  intro e he
  obtain ⟨a, ha, rfl⟩ := List.mem_map.mp he
  obtain ⟨p, hp, rfl⟩ := List.mem_map.mp ha
  have hlong := (orderedPairs_perm pairs k).mem_iff.mp (List.mem_of_mem_take hp)
  exact (of_decide_eq_true (List.mem_filter.mp hlong).2).1

/-- The edges of one center in a canonical result. -/
theorem trimmed_of_canonical (hm : 0 < m)
    (h : vesinFairchemEdges sorts (.ok nl) m = .ok (canonicalEdges pairs m)) {c : ℕ}
    (hc : c < nAtoms) : (trimmed sorts (kept sorts nl) m c).map Cand.edge =
      (((orderedPairs pairs c).take m.toNat).map VesinPair.cand).map Cand.edge := by
  rw [vesinFairchemEdges_eq hm] at h
  have hedges := congrArg (List.filter fun e : Edge => e.center = c)
    (offsets_eq_iff _ _ (Except.ok.inj h))
  rw [List.map_flatMap, List.map_flatMap, filter_blocks (trimmed_center _) hc,
    filter_blocks (orderedPairs_center pairs) hc] at hedges
  exact hedges

theorem closer_lt {κ : Type} [LinearOrder κ] {keep : List Cand} (tie : Fin keep.length → κ)
    (a b : Fin keep.length) (h : closer keep a b = true) :
    toLex ((keep.get a).dist, tie a) < toLex ((keep.get b).dist, tie b) :=
  Prod.Lex.toLex_lt_toLex.mpr (Or.inl (of_decide_eq_true h))

/-- Sorts that put one candidate before the others at its distance. -/
def favouring (first : Cand) : Sorts where
  cands := .ofKey Cand.key fun a b => (candLess_iff a b).mp
  closest keep := .ofKey (fun k => toLex ((keep.get k).dist, decide (keep.get k ≠ first)))
    (closer_lt _)

/-- The favoured candidate stands behind the shorter ones. -/
theorem closestOf_favouring {p : VesinPair nAtoms} {c : ℕ} (hp : p ∈ longPairs pairs c) :
    (closestOf (favouring p.cand) (kept (favouring p.cand) pairs) c)[(longPairs pairs c).countP
      fun x => x.distance < p.distance]? = some p.cand := by
  let keep := kept (favouring p.cand) pairs
  let key (k : Fin keep.length) : Distance ×ₗ Bool :=
    toLex ((keep.get k).dist, decide (keep.get k ≠ p.cand))
  let idxs := ((favouring p.cand).closest keep).sort (byCenter keep c)
  have hsorted : idxs.Pairwise fun a b => key a ≤ key b :=
    SortRoutine.ofKey_ordered (closer_lt _) _
  have hperm : idxs.Perm (byCenter keep c) := ((favouring p.cand).closest keep).perm _
  have hcands := kept_perm (favouring p.cand) (List.Perm.refl pairs) c
  obtain ⟨id, hid, hget⟩ : ∃ id ∈ idxs, keep.get id = p.cand := by
    have hmem : p.cand ∈ (byCenter keep c).map keep.get := by
      rw [map_get_byCenter]
      exact hcands.mem_iff.mpr (List.mem_map_of_mem hp)
    obtain ⟨id, hid, hget⟩ := List.mem_map.mp hmem
    exact ⟨id, hperm.mem_iff.mpr hid, hget⟩
  obtain ⟨b, hb, hkey⟩ := SortedByKey.exists_getElem_countP hsorted hid
  have hfirst : keep.get b = p.cand := by
    have htie : decide (keep.get b ≠ p.cand) = decide (keep.get id ≠ p.cand) :=
      congrArg (fun k => (ofLex k).2) hkey
    rw [decide_eq_decide, hget] at htie
    by_contra hne
    exact htie.mp hne rfl
  have hcount : idxs.countP (fun x => key x < key id) =
      (longPairs pairs c).countP fun x => x.distance < p.distance := by
    have hless : ∀ x, decide (key x < key id) = decide ((keep.get x).dist < p.distance) := by
      intro x
      have hdist : (keep.get id).dist = p.distance := by
        rw [hget]
        rfl
      have hfalse : decide (keep.get id ≠ p.cand) = false := decide_eq_false (not_not.mpr hget)
      rw [decide_eq_decide, Prod.Lex.toLex_lt_toLex, hdist, hfalse]
      exact or_iff_left fun h => absurd h.2 (not_lt.mpr (Bool.false_le _))
    calc idxs.countP (fun x => key x < key id)
        = idxs.countP fun x => (keep.get x).dist < p.distance := by simp only [hless]
      _ = ((byCenter keep c).map keep.get).countP fun a => a.dist < p.distance := by
          rw [hperm.countP_eq, List.countP_map]
          rfl
      _ = ((longPairs pairs c).map VesinPair.cand).countP fun a => a.dist < p.distance := by
          rw [map_get_byCenter, hcands.countP_eq]
      _ = (longPairs pairs c).countP fun x => x.distance < p.distance := by
          rw [List.countP_map]
          rfl
  rw [hcount] at hb
  rw [closestOf, List.getElem?_map]
  change (idxs[_]?).map keep.get = some p.cand
  rw [hb, Option.map_some, hfirst]

theorem getElem_resize {α : Type} {l : List α} {i : ℕ} (hi : (i : ℤ) < m) :
    (resize l m)[i]? = l[i]? := by
  unfold resize
  split
  · exact List.getElem?_take_of_lt (by omega)
  · rfl

/-- Two unlike edges that tie before `max_neighbors` can be put in either order. -/
theorem reproducible_of_canonical (hm : 0 < m)
    (h : ∀ sorts nl, nl.Perm pairs →
      vesinFairchemEdges sorts (.ok nl) m = .ok (canonicalEdges pairs m)) :
    Reproducible pairs m := by
  have hedges : ∀ sorts, ∀ c < nAtoms, (trimmed sorts (kept sorts pairs) m c).map Cand.edge =
      (((orderedPairs pairs c).take m.toNat).map VesinPair.cand).map Cand.edge :=
    fun sorts c hc => trimmed_of_canonical hm (h sorts pairs (List.Perm.refl pairs)) hc
  constructor
  · intro c hc hlong
    by_contra hcast
    let sorts : Sorts := favouring ⟨0, 0, 0, 0, 0, shortest⟩
    have hlength := congrArg List.length (hedges sorts c hc)
    have hclosest := (closestOf_perm sorts (List.Perm.refl pairs) c).length_eq
    rw [List.length_map] at hclosest
    have hresize : resize (closestOf sorts (kept sorts pairs) c) m =
        closestOf sorts (kept sorts pairs) c := by
      rw [resize, hclosest]
      exact if_neg hcast
    rw [List.length_map, List.length_map, List.length_map, List.length_take, trimmed_eq, hresize,
      hclosest, (orderedPairs_perm pairs c).length_eq] at hlength
    omega
  · intro c hc p hp q hq hdist hbefore
    have hat : ∀ x ∈ longPairs pairs c, x.distance = p.distance →
        ((((orderedPairs pairs c).take m.toNat).map VesinPair.cand).map Cand.edge)[
          (longPairs pairs c).countP fun y => y.distance < p.distance]? = some x.cand.edge := by
      intro x hx hxd
      have hfirst := closestOf_favouring hx
      rw [hxd] at hfirst
      rw [← hedges (favouring x.cand) c hc, List.getElem?_map, trimmed_eq,
        getElem_resize hbefore, hfirst, Option.map_some]
    have hpat := hat p hp rfl
    rw [hat q hq hdist.symm] at hpat
    exact (Option.some.inj hpat).symm

/-- The kept edges are those of the canonical order, whatever the order of the report and the sorts,
exactly when ties that reach them are between like edges. -/
theorem vesinFairchemEdges_canonical_iff (hm : 0 < m) :
    (∀ sorts nl, nl.Perm pairs →
      vesinFairchemEdges sorts (.ok nl) m = .ok (canonicalEdges pairs m)) ↔
    Reproducible pairs m := by
  refine ⟨reproducible_of_canonical hm, ?_⟩
  intro h sorts nl hp
  rw [vesinFairchemEdges_eq hm]
  refine congrArg Except.ok (ofCands_congr ?_)
  rw [List.map_flatMap, List.map_flatMap]
  apply List.flatMap_congr
  intro c hc
  exact trimmed_edges hm h hp (List.mem_range.mp hc)

end Blocks

section Row

/-- One Angstrom. -/
def angstrom : Distance := ⟨2 ^ double.bias, BinaryFloat.representable_one⟩

theorem tiny_lt_angstrom : tiny < (angstrom : ℕ) := by
  have hvalue : ((angstrom : ℕ) : ℚ) = 2 ^ double.bias := Nat.cast_pow 2 double.bias
  rw [hvalue]
  exact div_lt_self (by positivity) (by norm_num)

def dimer : List (VesinPair 2) := [⟨0, 1, fun _ => 0, angstrom⟩, ⟨1, 0, fun _ => 0, angstrom⟩]

theorem representable_angstroms : ∀ k < 8, double.Representable (k * 2 ^ double.bias) := by
  decide +kernel

/-- Up to 7 Angstrom. -/
def angstroms (k : ℕ) : Distance :=
  ⟨min k 7 * 2 ^ double.bias, representable_angstroms _ (Nat.lt_succ_of_le (Nat.min_le_right k 7))⟩

/-- Places on a line. -/
def place : Fin 5 → ℤ := ![0, 1, -2, 3, -3]

/-- All pairs of five atoms on a line. The first has two neighbors at 3 Angstrom, behind two nearer ones. -/
def line : List (VesinPair 5) :=
  (List.finRange 5).flatMap fun i => ((List.finRange 5).filter fun j => j ≠ i).map fun j =>
    ⟨i, j, fun _ => 0, angstroms (place i - place j).natAbs⟩

/-- Two of the four edges of each atom are kept, whatever the order of the report and of the sorts. -/
theorem line_canonical :
    vesinFairchemEdges (favouring ⟨3, 0, 0, 0, 0, angstroms 3⟩) (.ok line.reverse) 2 =
      .ok (canonicalEdges line 2) ∧ ∀ c < 5, (longPairs line c).length = 4 := by
  have hlong : ∀ c < 5, (longPairs line c).length = 4 := by decide +kernel
  refine ⟨(vesinFairchemEdges_canonical_iff (by decide)).mpr ⟨?_, ?_⟩ _ _ (List.reverse_perm line), hlong⟩
  · intro c hc _
    rw [hlong c hc]
    decide
  · decide +kernel

/-- Three atoms in a row: the middle one has two neighbors at one distance. -/
def row : List (VesinPair 3) :=
  [⟨0, 1, fun _ => 0, angstrom⟩, ⟨1, 0, fun _ => 0, angstrom⟩,
    ⟨1, 2, fun _ => 0, angstrom⟩, ⟨2, 1, fun _ => 0, angstrom⟩]

theorem not_vesinFairchemEdges_canonical : ¬ ∀ sorts nl, nl.Perm row →
    vesinFairchemEdges sorts (.ok nl) 300 = .ok (canonicalEdges row 300) := by
  intro h
  have hties := (reproducible_of_canonical (by decide) h).ties 1 (by decide)
  have hlong : ∀ n : Fin 3, ⟨1, n, fun _ => 0, angstrom⟩ ∈ row →
      (⟨1, n, fun _ => 0, angstrom⟩ : VesinPair 3) ∈ longPairs row 1 :=
    fun n hn => List.mem_filter.mpr ⟨hn, decide_eq_true ⟨rfl, tiny_lt_angstrom⟩⟩
  have hcount : (longPairs row 1).countP (fun x => x.distance < angstrom) ≤ row.length :=
    List.countP_le_length.trans (List.length_filter_le _ _)
  have hsame := hties _ (hlong 0 (by simp [row])) _ (hlong 2 (by simp [row])) rfl
    (lt_of_le_of_lt (Int.ofNat_le.mpr hcount) (by decide))
  exact absurd (congrArg Edge.neighbor hsame) (by decide)

end Row

end Rgpot.Uma
