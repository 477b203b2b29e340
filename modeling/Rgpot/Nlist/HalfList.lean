import Rgpot.Nlist.Evaluation
import Rgpot.Nlist.IndexBounds

/-! The CSR half list as a representation of the scanned pairs: nothing lost or repeated, whatever order
the scan reports them in. -/
namespace Rgpot.Nlist
open Rounding CountingSort

/-- What a scan hands over: each unordered pair at most once with the smaller atom first, few enough for
int32 positions, and ascending partners where the rows count as sorted. -/
structure Scan (n : ℕ) (rowsSorted : Bool) (pairsIJ : List (ℕ × ℕ)) : Prop where
  nodup : pairsIJ.Nodup
  ordered : ∀ p ∈ pairsIJ, p.1 < p.2 ∧ p.2 < n
  ascending : rowsSorted = true → ∀ i, (bucket pairsIJ i).Pairwise (· < ·)
  count : pairsIJ.length < 2 ^ 31

section Rows
variable {n : ℕ} {rowsSorted rowsSorted' : Bool} {pairs pairs' : List (ℕ × ℕ)}

theorem mem_bucket {i j : ℕ} : j ∈ bucket pairs i ↔ (i, j) ∈ pairs := by
  simp [bucket]

theorem Scan.keys_lt (h : Scan n rowsSorted pairs) : ∀ p ∈ pairs, p.1 < n :=
  fun p hp => (h.ordered p hp).1.trans (h.ordered p hp).2

theorem Scan.bucket_nodup (h : Scan n rowsSorted pairs) (i : ℕ) : (bucket pairs i).Nodup := by
  refine List.Nodup.map_on ?_ (h.nodup.filter _)
  intro p hp q hq hpq
  have hpi := of_decide_eq_true (List.mem_filter.mp hp).2
  have hqi := of_decide_eq_true (List.mem_filter.mp hq).2
  exact Prod.ext (hpi.trans hqi.symm) hpq

/-- A row as the build leaves it. -/
def finalRow (pairs : List (ℕ × ℕ)) (rowsSorted : Bool) (i : ℕ) : List ℕ :=
  if rowsSorted then bucket pairs i else (bucket pairs i).insertionSort (· ≤ ·)

theorem Scan.finalRow_perm (pairs : List (ℕ × ℕ)) (rowsSorted : Bool) (i : ℕ) :
    (finalRow pairs rowsSorted i).Perm (bucket pairs i) := by
  unfold finalRow
  split
  · exact List.Perm.refl _
  · exact List.perm_insertionSort _ _

theorem Scan.finalRow_ascending (h : Scan n rowsSorted pairs) (i : ℕ) :
    (finalRow pairs rowsSorted i).Pairwise (· < ·) := by
  cases hsorted : rowsSorted with
  | true => exact h.ascending hsorted i
  | false =>
    have hle : (finalRow pairs false i).Pairwise (· ≤ ·) := List.pairwise_insertionSort _ _
    have hne : (finalRow pairs false i).Nodup :=
      (Scan.finalRow_perm pairs false i).nodup_iff.mpr (h.bucket_nodup i)
    exact hle.and hne |>.imp fun hab => lt_of_le_of_ne hab.1 hab.2

/-- A row depends on the set of reported pairs only. -/
theorem Scan.finalRow_eq (h : Scan n rowsSorted pairs) (h' : Scan n rowsSorted' pairs')
    (hset : ∀ p, p ∈ pairs' ↔ p ∈ pairs) (i : ℕ) :
    finalRow pairs' rowsSorted' i = finalRow pairs rowsSorted i := by
  have hperm : pairs'.Perm pairs := (List.perm_ext_iff_of_nodup h'.nodup h.nodup).mpr hset
  have hrows : (finalRow pairs' rowsSorted' i).Perm (finalRow pairs rowsSorted i) :=
    (Scan.finalRow_perm _ _ i).trans
      (((hperm.filter _).map _).trans (Scan.finalRow_perm _ _ i).symm)
  refine hrows.eq_of_pairwise ?_ (h'.finalRow_ascending i) (h.finalRow_ascending i)
  intro a b _ _ hab hba
  omega

end Rows

variable {K : Type} [Field K] [LinearOrder K] [FloorRing K] [OutwardRoot K]

/-- A list holds exactly the reported pairs: row `i` its partners, ascending and above `i`. -/
structure HalfList (l : CachedPairList K) (n : ℕ) (pairs : List (ℕ × ℕ)) : Prop where
  rows_zero : l.rows 0 = 0
  rows_le : ∀ i < n, l.rows i ≤ l.rows (i + 1)
  rows_last : l.rows n = pairs.length
  ascending : ∀ i < n, (slice l.rows l.nbr i).Pairwise (· < ·)
  above : ∀ i < n, ∀ j ∈ slice l.rows l.nbr i, i < j ∧ j < n
  partners : ∀ i < n, ∀ j, j ∈ slice l.rows l.nbr i ↔ (i, j) ∈ pairs

section Finish
variable {s : BoxSetup K} {R : Positions K} {n : ℕ} {box : Box K} {opt : Options K}
variable {rowsSorted rowsSorted' codes : Bool} {pairs pairs' : List (ℕ × ℕ)}

omit [FloorRing K] [OutwardRoot K] in
theorem finishRows_slice (hkeys : ∀ p ∈ pairs, p.1 < n) {i : ℕ} (hi : i < n) :
    slice (finishRows s pairs R n box opt rowsSorted).rows
      (finishRows s pairs R n box opt rowsSorted).nbr i = finalRow pairs rowsSorted i := by
  cases rowsSorted with
  | true =>
    simp only [finishRows, if_true]
    exact slice_place pairs hkeys hi _
  | false =>
    simp only [finishRows, Bool.false_eq_true, if_false]
    rw [slice_sortRows (fun hab hb => starts_mono _ hab hb) hi, slice_place _ hkeys hi]
    rfl

omit [FloorRing K] [OutwardRoot K] in
theorem finishRows_halfList (h : Scan n rowsSorted pairs) :
    HalfList (finishRows s pairs R n box opt rowsSorted) n pairs := by
  have hmem : ∀ i < n, ∀ j, j ∈ slice (finishRows s pairs R n box opt rowsSorted).rows
      (finishRows s pairs R n box opt rowsSorted).nbr i ↔ (i, j) ∈ pairs := by
    intro i hi j
    rw [finishRows_slice h.keys_lt hi, (Scan.finalRow_perm pairs rowsSorted i).mem_iff, mem_bucket]
  have hkeys : ∀ k ∈ pairs.map Prod.fst, k < n := by
    intro k hk
    obtain ⟨p, hp, rfl⟩ := List.mem_map.mp hk
    exact h.keys_lt p hp
  constructor
  · exact starts_zero _ n
  · intro i hi
    exact starts_mono _ (Nat.le_succ i) hi
  · exact (starts_last hkeys).trans (List.length_map _)
  · intro i hi
    rw [finishRows_slice h.keys_lt hi]
    exact h.finalRow_ascending i
  · intro i hi j hj
    exact h.ordered (i, j) ((hmem i hi j).mp hj)
  · exact hmem

variable (s R box opt) in
omit [FloorRing K] [OutwardRoot K] in
/-- The int32 counters of the build do not overflow. -/
theorem finishRows_rows32 (h : Scan n rowsSorted pairs) : ∃ nbr, rows32 pairs n =
    some ((finishRows s pairs R n box opt rowsSorted).rows, nbr) ∧
    (finishRows s pairs R n box opt rowsSorted).nbr =
      if rowsSorted then nbr else sortRows (finishRows s pairs R n box opt rowsSorted).rows nbr n := by
  have hcount := h.count
  have hsort : rows32 pairs n = _ := CheckedSort.sort_eq h.keys_lt fun _ => 0
  rw [if_pos (by unfold INT32_MAX; omega)] at hsort
  exact ⟨_, hsort, rfl⟩

theorem writeRow_of_length_le {out : ℕ → ℕ} {s q : ℕ} {row : List ℕ} (h : s + row.length ≤ q) :
    writeRow out s row q = out q := by
  unfold writeRow
  rw [if_pos (by omega), List.getD_eq_default _ _ (by omega)]

/-- Sorting the rows keeps what lies behind the last of them. -/
theorem sortRows_of_le {rows nbr : ℕ → ℕ} {n q : ℕ}
    (hmono : ∀ {a b}, a ≤ b → b ≤ n → rows a ≤ rows b) (hq : rows n ≤ q) :
    sortRows rows nbr n q = nbr q := by
  suffices h : ∀ m ≤ n, sortRows rows nbr m q = nbr q from h n le_rfl
  intro m
  induction m with
  | zero => exact fun _ => rfl
  | succ m ih =>
    intro hm
    rw [sortRows, List.range_succ, List.foldl_append]
    refine (writeRow_of_length_le ?_).trans (ih (by omega))
    have hlast := hmono hm le_rfl
    have hrow := hmono (show m ≤ m + 1 from Nat.le_succ m) hm
    have hlength : ((slice rows (sortRows rows nbr m) m).insertionSort (· ≤ ·)).length =
        rows (m + 1) - rows m := by
      simp [slice]
    change rows m + ((slice rows (sortRows rows nbr m) m).insertionSort (· ≤ ·)).length ≤ q
    omega

/-- Every position before the last row's end lies in a row. -/
theorem exists_row {rows : ℕ → ℕ} {n q : ℕ} (hzero : rows 0 = 0) (hq : q < rows n) :
    ∃ i < n, rows i ≤ q ∧ q < rows (i + 1) := by
  induction n with
  | zero =>
    rw [hzero] at hq
    exact absurd hq (Nat.not_lt_zero q)
  | succ n ih =>
    by_cases hrow : q < rows n
    · obtain ⟨i, hi, hin⟩ := ih hrow
      exact ⟨i, Nat.lt_succ_of_lt hi, hin⟩
    · exact ⟨n, Nat.lt_succ_self n, Nat.le_of_not_lt hrow, hq⟩

/-- Equal slices have equal entries. -/
theorem eq_of_slice_eq {rows nbr nbr' : ℕ → ℕ} {i q : ℕ} (h : slice rows nbr' i = slice rows nbr i)
    (hlow : rows i ≤ q) (hhigh : q < rows (i + 1)) : nbr' q = nbr q := by
  unfold slice at h
  rw [List.map_inj_left] at h
  apply h
  rw [List.mem_range'_1]
  omega

theorem countKeys_congr {keys keys' : List ℕ} (h : keys'.Perm keys) :
    countKeys keys' = countKeys keys := by
  funext k
  cases k with
  | zero => rw [countKeys_zero, countKeys_zero]
  | succ k => rw [countKeys_succ, countKeys_succ, h.count_eq]

omit [FloorRing K] [OutwardRoot K] in
/-- Behind the last row a build leaves what it allocated. -/
theorem finishRows_nbr_of_le (h : Scan n rowsSorted pairs) {q : ℕ} (hq : pairs.length ≤ q) :
    (finishRows s pairs R n box opt rowsSorted).nbr q = 0 := by
  have hplace := place_of_length_le h.keys_lt (fun _ => 0) hq
  cases rowsSorted with
  | true =>
    simp only [finishRows, if_true]
    exact hplace
  | false =>
    have hhalf : HalfList (finishRows s pairs R n box opt false) n pairs := finishRows_halfList h
    have hlast : starts (pairs.map Prod.fst) n n = pairs.length := hhalf.rows_last
    simp only [finishRows, Bool.false_eq_true, if_false]
    rw [sortRows_of_le (fun hab hb => starts_mono _ hab hb) (hlast.trans_le hq), hplace]

omit [FloorRing K] [OutwardRoot K] in
/-- The rows of a build are those of the set of pairs. -/
theorem finishRows_eq (h : Scan n rowsSorted pairs) (h' : Scan n rowsSorted' pairs')
    (hset : ∀ p, p ∈ pairs' ↔ p ∈ pairs) :
    finishRows s pairs' R n box opt rowsSorted' = finishRows s pairs R n box opt rowsSorted := by
  have hperm : pairs'.Perm pairs := (List.perm_ext_iff_of_nodup h'.nodup h.nodup).mpr hset
  have hrows : (finishRows s pairs' R n box opt rowsSorted').rows =
      (finishRows s pairs R n box opt rowsSorted).rows :=
    congrArg (prefixSum · n) (countKeys_congr (hperm.map Prod.fst))
  have hnbr : (finishRows s pairs' R n box opt rowsSorted').nbr =
      (finishRows s pairs R n box opt rowsSorted).nbr := by
    have hhalf : HalfList (finishRows s pairs R n box opt rowsSorted) n pairs := finishRows_halfList h
    funext q
    by_cases hq : pairs.length ≤ q
    · rw [finishRows_nbr_of_le h hq, finishRows_nbr_of_le h' (hperm.length_eq.trans_le hq)]
    · obtain ⟨i, hi, hlow, hhigh⟩ := exists_row hhalf.rows_zero
        (show q < (finishRows s pairs R n box opt rowsSorted).rows n by
          rw [hhalf.rows_last]
          omega)
      have hslice' : slice (finishRows s pairs' R n box opt rowsSorted').rows
          (finishRows s pairs' R n box opt rowsSorted').nbr i = finalRow pairs' rowsSorted' i :=
        finishRows_slice h'.keys_lt hi
      refine eq_of_slice_eq ?_ hlow hhigh
      rw [finishRows_slice h.keys_lt hi, ← h.finalRow_eq h' hset i, ← hslice', hrows]
  have hcomplete : (finishRows s pairs' R n box opt rowsSorted').complete =
      (finishRows s pairs R n box opt rowsSorted).complete := by
    simp only [finishRows, hperm.length_eq]
  calc finishRows s pairs' R n box opt rowsSorted'
      = { finishRows s pairs R n box opt rowsSorted with
          rows := (finishRows s pairs' R n box opt rowsSorted').rows
          nbr := (finishRows s pairs' R n box opt rowsSorted').nbr
          complete := (finishRows s pairs' R n box opt rowsSorted').complete } := rfl
    _ = finishRows s pairs R n box opt rowsSorted := by rw [hrows, hnbr, hcomplete]

omit [OutwardRoot K] in
/-- Two scans of one set of pairs give one list. -/
theorem finishRebuild_eq (h : Scan n rowsSorted pairs) (h' : Scan n rowsSorted' pairs')
    (hset : ∀ p, p ∈ pairs' ↔ p ∈ pairs) :
    finishRebuild s pairs' R n box opt rowsSorted' codes =
      finishRebuild s pairs R n box opt rowsSorted codes := by
  unfold finishRebuild
  rw [finishRows_eq h h' hset]

omit [OutwardRoot K] in
/-- Codes and folds aside, a build is its rows. -/
theorem finishRebuild_halfList (h : Scan n rowsSorted pairs) :
    HalfList (finishRebuild s pairs R n box opt rowsSorted codes) n pairs := by
  obtain ⟨code, shift, fold, hframe⟩ := finishRebuild_frame s pairs R n box opt rowsSorted codes
  have hhalf : HalfList (finishRows s pairs R n box opt rowsSorted) n pairs := finishRows_halfList h
  rw [hframe]
  exact ⟨hhalf.rows_zero, hhalf.rows_le, hhalf.rows_last, hhalf.ascending, hhalf.above, hhalf.partners⟩

omit [OutwardRoot K] in
theorem finishRebuild_n : (finishRebuild s pairs R n box opt rowsSorted codes).n = n := by
  obtain ⟨code, shift, fold, hframe⟩ := finishRebuild_frame s pairs R n box opt rowsSorted codes
  rw [hframe]
  rfl

omit [OutwardRoot K] in
/-- The lattice fold is for general cells only. -/
theorem finishRebuild_fold :
    (finishRebuild s pairs R n box opt rowsSorted codes).fold = .general ↔ s.general = true := by
  cases hgeneral : s.general with
  | true => simp [finishRebuild, hgeneral]
  | false =>
    unfold finishRebuild buildImageCodes
    simp only [hgeneral, Bool.false_eq_true, if_false]
    split_ifs
    all_goals simp

end Finish

section Forces
variable {l : CachedPairList K} {n : ℕ} {pairs : List (ℕ × ℕ)} {R : Positions K} {σ : Type}

omit [Field K] [LinearOrder K] [FloorRing K] [OutwardRoot K] in
/-- The candidates of a list are the reported pairs. -/
theorem HalfList.entries_perm (h : HalfList l n pairs) (hn : l.n = n) (hnodup : pairs.Nodup)
    (hkeys : ∀ p ∈ pairs, p.1 < n) :
    ((entries l.rows l.n).map fun e => (e.1, l.nbr e.2)).Perm pairs := by
  have hrows : (entries l.rows l.n).map (fun e => (e.1, l.nbr e.2)) =
      (List.range n).flatMap fun i => (slice l.rows l.nbr i).map (Prod.mk i) := by
    rw [entries, hn, List.map_flatMap]
    apply List.flatMap_congr
    intro i _
    rw [slice, List.map_map, List.map_map]
    rfl
  rw [hrows]
  refine (List.perm_ext_iff_of_nodup ?_ hnodup).mpr ?_
  · rw [List.nodup_flatMap]
    constructor
    · intro i hi
      have hrow := (h.ascending i (List.mem_range.mp hi)).imp fun hab => ne_of_lt hab
      exact List.Nodup.map (Prod.mk_right_injective i) hrow
    · refine List.nodup_range.imp ?_
      intro i i' hne p hp hp'
      obtain ⟨j, -, rfl⟩ := List.mem_map.mp hp
      obtain ⟨j', -, heq⟩ := List.mem_map.mp hp'
      exact hne (congrArg Prod.fst heq).symm
  · rintro ⟨i, j⟩
    rw [List.mem_flatMap]
    constructor
    · rintro ⟨i', hi', hj⟩
      obtain ⟨j', hj', heq⟩ := List.mem_map.mp hj
      cases heq
      exact (h.partners i (List.mem_range.mp hi') j).mp hj'
    · intro hp
      have hi := hkeys (i, j) hp
      exact ⟨i, List.mem_range.mpr hi, List.mem_map_of_mem ((h.partners i hi j).mpr hp)⟩

omit [LinearOrder K] [FloorRing K] [OutwardRoot K] in
/-- What one candidate adds, the other atom loses. -/
theorem sum_pairForce (law : PairLaw K σ) {v : Visit K} (h : v.i < n ∧ v.j < n) :
    ∑ a ∈ Finset.range n, pairForce law a v = 0 := by
  have hi := Finset.mem_range.mpr h.1
  have hj := Finset.mem_range.mpr h.2
  simp only [pairForce, Finset.sum_sub_distrib, Finset.sum_ite_eq, if_pos hi, if_pos hj, sub_self]

omit [LinearOrder K] [FloorRing K] [OutwardRoot K] in
theorem sum_pairForces (law : PairLaw K σ) {vs : List (Visit K)} (h : ∀ v ∈ vs, v.i < n ∧ v.j < n) :
    ∑ a ∈ Finset.range n, (vs.map (pairForce law a)).sum = 0 := by
  induction vs with
  | nil => simp
  | cons v vs ih =>
    obtain ⟨hv, hrest⟩ := List.forall_mem_cons.mp h
    simp only [List.map_cons, List.sum_cons, Finset.sum_add_distrib, sum_pairForce law hv, ih hrest,
      add_zero]

/-- What a loop over the list leaves: one record a reported pair, the kernel on the accepted ones,
and no net force. -/
structure Accumulated (l : CachedPairList K) (n : ℕ) (pairs : List (ℕ × ℕ)) (law : PairLaw K σ)
    (R : Positions K) (F : ℕ → Vec3 K) (sums : Sums K σ) (records : List (Visit K)) : Prop where
  reported : (records.map fun v => (v.i, v.j)).Perm pairs
  displaced : ∀ v ∈ records, v.r2 = sqNorm v.d ∧ ∃ p, l.nbr p = v.j ∧ l.apply R v.i p = .ok v.d
  accepted : sums.trace = records.filter fun v => v.r2 ≤ l.opt.cutoff * l.opt.cutoff
  energy : sums.energy = (sums.trace.map fun v => (law.kernel v.i v.j v.r2).energy).sum
  net_force : ∑ a ∈ Finset.range n, (sums.F a - F a) = 0

theorem candidate_eq_ok {e : ℕ × ℕ} {v : Visit K} :
    l.candidate R e = .ok v ↔ ∃ d, l.apply R e.1 e.2 = .ok d ∧ ⟨e.1, l.nbr e.2, d, sqNorm d⟩ = v := by
  unfold CachedPairList.candidate
  rw [Fallible.bind_eq_ok]
  simp only [pure, Except.pure, Except.ok.injEq]

theorem candidates_pairs {es : List (ℕ × ℕ)} {vs : List (Visit K)}
    (h : es.mapM (l.candidate R) = .ok vs) :
    vs.map (fun v => (v.i, v.j)) = es.map fun e => (e.1, l.nbr e.2) := by
  induction Fallible.mapM_eq_ok_iff.mp h with
  | nil => rfl
  | @cons e v es vs hv hvs ih =>
    obtain ⟨d, -, rfl⟩ := candidate_eq_ok.mp hv
    rw [List.map_cons, List.map_cons, ih (Fallible.mapM_eq_ok_iff.mpr hvs)]

theorem HalfList.accumulated (h : HalfList l n pairs) (hn : l.n = n) (hnodup : pairs.Nodup)
    (hordered : ∀ p ∈ pairs, p.1 < p.2 ∧ p.2 < n) {law : PairLaw K σ} {F : ℕ → Vec3 K} {obs : σ}
    {sums : Sums K σ} (hsums : l.accumulate law R F obs = .ok sums) :
    ∃ records, Accumulated l n pairs law R F sums records := by
  rw [accumulate_eq] at hsums
  obtain ⟨vs, hvs, rfl⟩ := Fallible.map_eq_ok.mp hsums
  obtain ⟨records, hrecords, hfilter⟩ := Fallible.bind_eq_ok.mp hvs
  cases hfilter
  have hkeys : ∀ p ∈ pairs, p.1 < n := fun p hp => (hordered p hp).1.trans (hordered p hp).2
  have hreported : (records.map fun v => (v.i, v.j)).Perm pairs := by
    rw [candidates_pairs hrecords]
    exact h.entries_perm hn hnodup hkeys
  have hatoms : ∀ v ∈ records, v.i < n ∧ v.j < n := by
    intro v hv
    have hp := hreported.mem_iff.mp (List.mem_map_of_mem hv)
    exact ⟨hkeys _ hp, (hordered _ hp).2⟩
  refine ⟨records, hreported, ?_, summed_trace law F obs _, ?_, ?_⟩
  · intro v hv
    obtain ⟨e, -, he⟩ := Fallible.mapM_mem hrecords hv
    obtain ⟨d, hd, rfl⟩ := candidate_eq_ok.mp he
    exact ⟨rfl, e.2, rfl, hd⟩
  · rw [summed_energy, summed_trace]
  · simp only [summed_F, add_sub_cancel_left]
    exact sum_pairForces law fun v hv => hatoms v (List.mem_of_mem_filter hv)

/-- Only the lattice fold can refuse a candidate, by the displacement of its pair. -/
theorem exists_candidate_iff {e : ℕ × ℕ} : (∃ v, l.candidate R e = .ok v) ↔
    (l.fold = .general → ∃ d, l.generalImage.fold (R e.1 - R (l.nbr e.2)) = .ok d) := by
  have happly : (∃ v, l.candidate R e = .ok v) ↔ ∃ d, l.apply R e.1 e.2 = .ok d := by
    constructor
    · rintro ⟨v, hv⟩
      obtain ⟨d, hd, -⟩ := candidate_eq_ok.mp hv
      exact ⟨d, hd⟩
    · rintro ⟨d, hd⟩
      exact ⟨_, candidate_eq_ok.mpr ⟨d, hd, rfl⟩⟩
  rw [happly]
  unfold CachedPairList.apply
  cases l.fold with
  | general => exact ⟨fun h _ => h, fun h => h rfl⟩
  | coded => simp
  | round => simp
  | none => simp

/-- A loop over the list returns exactly when the lattice fold takes every reported pair, where it is
the fold of the list. -/
theorem HalfList.exists_accumulate_iff (h : HalfList l n pairs) (hn : l.n = n) (hnodup : pairs.Nodup)
    (hordered : ∀ p ∈ pairs, p.1 < p.2 ∧ p.2 < n) (law : PairLaw K σ) (F : ℕ → Vec3 K) (obs : σ) :
    (∃ sums, l.accumulate law R F obs = .ok sums) ↔
      (l.fold = .general → ∀ p ∈ pairs, ∃ d, l.generalImage.fold (R p.1 - R p.2) = .ok d) := by
  have hsums : (∃ sums, l.accumulate law R F obs = .ok sums) ↔
      ∃ vs, (entries l.rows l.n).mapM (l.candidate R) = .ok vs := by
    rw [accumulate_eq, CachedPairList.forEach]
    constructor
    · rintro ⟨sums, hsums⟩
      obtain ⟨vs, hvs, -⟩ := Fallible.map_eq_ok.mp hsums
      obtain ⟨records, hrecords, -⟩ := Fallible.bind_eq_ok.mp hvs
      exact ⟨records, hrecords⟩
    · rintro ⟨vs, hvs⟩
      rw [hvs]
      exact ⟨_, rfl⟩
  have hperm := h.entries_perm hn hnodup fun p hp => (hordered p hp).1.trans (hordered p hp).2
  rw [hsums, Fallible.exists_mapM_eq_ok]
  simp only [exists_candidate_iff]
  constructor
  · intro hall hfold p hp
    obtain ⟨e, he, rfl⟩ := List.mem_map.mp (hperm.mem_iff.mpr hp)
    exact hall e he hfold
  · intro hall e he hfold
    exact hall hfold (e.1, l.nbr e.2) (hperm.mem_iff.mp (List.mem_map_of_mem he))

end Forces

/-- The list a scan leaves: the reported pairs and no others, the same for every order of the scan,
and exact sums for every kernel. -/
theorem half_list_faithful {n : ℕ} {rowsSorted : Bool} {pairs : List (ℕ × ℕ)}
    (h : Scan n rowsSorted pairs) (s : BoxSetup K) (R : Positions K) (box : Box K) (opt : Options K)
    (codes : Bool) {l : CachedPairList K}
    (hl : finishRebuild s pairs R n box opt rowsSorted codes = l) :
    HalfList l n pairs ∧
      (∃ nbr, rows32 pairs n = some (l.rows, nbr) ∧
        l.nbr = if rowsSorted then nbr else sortRows l.rows nbr n) ∧
      (∀ rowsSorted' pairs', Scan n rowsSorted' pairs' → (∀ p, p ∈ pairs' ↔ p ∈ pairs) →
        finishRebuild s pairs' R n box opt rowsSorted' codes = l) ∧
      ∀ (σ : Type) (law : PairLaw K σ) (R' : Positions K) (F : ℕ → Vec3 K) (obs : σ),
        (∀ sums, l.accumulate law R' F obs = .ok sums →
          ∃ records, Accumulated l n pairs law R' F sums records) ∧
        ((∃ sums, l.accumulate law R' F obs = .ok sums) ↔
          (s.general = true → ∀ p ∈ pairs, ∃ d, l.generalImage.fold (R' p.1 - R' p.2) = .ok d)) := by
  subst hl
  have hhalf : HalfList (finishRebuild s pairs R n box opt rowsSorted codes) n pairs :=
    finishRebuild_halfList h
  refine ⟨hhalf, ?_, ?_, ?_⟩
  · obtain ⟨code, shift, fold, hframe⟩ := finishRebuild_frame s pairs R n box opt rowsSorted codes
    rw [hframe]
    exact finishRows_rows32 s R box opt h
  · intro rowsSorted' pairs' h' hset
    exact finishRebuild_eq h h' hset
  · intro σ law R' F obs
    constructor
    · intro sums hsums
      exact hhalf.accumulated finishRebuild_n h.nodup h.ordered hsums
    · rw [← finishRebuild_fold]
      exact hhalf.exists_accumulate_iff finishRebuild_n h.nodup h.ordered law F obs

/-- Three atoms, reported back to front. -/
def threePairs : List (ℕ × ℕ) := [(1, 2), (0, 2), (0, 1)]

theorem threePairs_scan : Scan 3 false threePairs where
  nodup := by decide
  ordered := by decide
  ascending hsorted := by cases hsorted
  count := by decide

theorem half_list_faithful_three :
    HalfList (finishRebuild (micSetup 3 freeBox freeOptions) threePairs (fun _ => 0) 3 freeBox
      freeOptions false true) 3 threePairs :=
  (half_list_faithful threePairs_scan _ _ _ _ true rfl).1

example : (List.range 3).map (finishRebuild (micSetup 3 freeBox freeOptions) threePairs (fun _ => 0) 3
    freeBox freeOptions false true).nbr = [1, 2, 2] := by decide +kernel

end Rgpot.Nlist
