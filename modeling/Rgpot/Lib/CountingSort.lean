import Rgpot.Lib.Numerals

/-! Counting sort into buckets: row starts by a prefix sum, then a stable fill. -/
namespace CountingSort

variable {α : Type}

/-- `++a[k + 1]` for every key `k`, from a zeroed array. -/
def countKeys (keys : List ℕ) : ℕ → ℕ :=
  keys.foldl (fun a k => Function.update a (k + 1) (a (k + 1) + 1)) fun _ => 0

/-- `a[c + 1] += a[c]` for `c = 0, …, m - 1`. -/
def prefixSum (a : ℕ → ℕ) (m : ℕ) : ℕ → ℕ :=
  (List.range m).foldl (fun a c => Function.update a (c + 1) (a (c + 1) + a c)) a

/-- `out[fill[k]++] = x` for every item `(k, x)`. -/
def place (start : ℕ → ℕ) (out : ℕ → α) (items : List (ℕ × α)) : (ℕ → ℕ) × (ℕ → α) :=
  items.foldl (fun (fill, out) (k, x) =>
    (Function.update fill k (fill k + 1), Function.update out (fill k) x)) (start, out)

def bucket (items : List (ℕ × α)) (k : ℕ) : List α :=
  (items.filter fun p => p.1 = k).map Prod.snd

/-- The slice `[start k, start (k + 1))`. -/
def slice (start : ℕ → ℕ) (out : ℕ → α) (k : ℕ) : List α :=
  (List.range' (start k) (start (k + 1) - start k)).map out

theorem countKeys_succ (keys : List ℕ) (k : ℕ) : countKeys keys (k + 1) = keys.count k := by
  induction keys using List.reverseRecOn with
  | nil => rfl
  | append_singleton keys j ih =>
    simp only [countKeys, List.foldl_append, List.foldl_cons, List.foldl_nil] at ih ⊢
    rw [List.count_append, List.count_singleton]
    by_cases h : k = j
    · subst h
      simp [ih]
    · rw [Function.update_of_ne (by omega), ih]
      simp [Ne.symm h]

theorem countKeys_zero (keys : List ℕ) : countKeys keys 0 = 0 := by
  induction keys using List.reverseRecOn with
  | nil => rfl
  | append_singleton keys j ih =>
    simp only [countKeys, List.foldl_append, List.foldl_cons, List.foldl_nil] at ih ⊢
    rw [Function.update_of_ne (by omega), ih]

theorem prefixSum_succ_range (a : ℕ → ℕ) (m : ℕ) :
    prefixSum a (m + 1) =
      Function.update (prefixSum a m) (m + 1) (prefixSum a m (m + 1) + prefixSum a m m) := by
  simp [prefixSum, List.range_succ]

theorem prefixSum_of_lt (a : ℕ → ℕ) {m c : ℕ} (h : m < c) : prefixSum a m c = a c := by
  induction m with
  | zero => rfl
  | succ m ih =>
    rw [prefixSum_succ_range, Function.update_of_ne (by omega), ih (by omega)]

theorem prefixSum_of_le (a : ℕ → ℕ) {m c : ℕ} (h : c ≤ m) : prefixSum a m c = prefixSum a c c := by
  induction m, h using Nat.le_induction with
  | base => rfl
  | succ m hcm ih =>
    rw [prefixSum_succ_range, Function.update_of_ne (by omega), ih]

theorem prefixSum_zero (a : ℕ → ℕ) (m : ℕ) : prefixSum a m 0 = a 0 := by
  rw [prefixSum_of_le a (Nat.zero_le m)]
  rfl

theorem prefixSum_succ (a : ℕ → ℕ) {m c : ℕ} (h : c < m) :
    prefixSum a m (c + 1) = prefixSum a m c + a (c + 1) := by
  rw [prefixSum_of_le a (show c + 1 ≤ m from h), prefixSum_succ_range, Function.update_self,
    prefixSum_of_lt a (Nat.lt_succ_self c), prefixSum_of_le a h.le, Nat.add_comm]

/-- Row starts computed from the keys. -/
def starts (keys : List ℕ) (m : ℕ) : ℕ → ℕ := prefixSum (countKeys keys) m

theorem starts_zero (keys : List ℕ) (m : ℕ) : starts keys m 0 = 0 := by
  rw [starts, prefixSum_zero, countKeys_zero]

theorem starts_succ (keys : List ℕ) {m k : ℕ} (h : k < m) :
    starts keys m (k + 1) = starts keys m k + keys.count k := by
  rw [starts, prefixSum_succ _ h, countKeys_succ]

theorem starts_mono (keys : List ℕ) {m j k : ℕ} (hjk : j ≤ k) (hk : k ≤ m) :
    starts keys m j ≤ starts keys m k := by
  induction k, hjk using Nat.le_induction with
  | base => exact le_rfl
  | succ k hjk ih =>
    rw [starts_succ keys (by omega)]
    exact (ih (by omega)).trans (Nat.le_add_right _ _)

theorem length_bucket (items : List (ℕ × α)) (k : ℕ) :
    (bucket items k).length = (items.map Prod.fst).count k := by
  rw [bucket, List.length_map, ← List.countP_eq_length_filter, List.count, List.countP_map]
  congr 1

theorem bucket_append_singleton (items : List (ℕ × α)) (j k : ℕ) (x : α) :
    bucket (items ++ [(j, x)]) k = bucket items k ++ if j = k then [x] else [] := by
  by_cases h : j = k <;> simp [bucket, h]

/-- What the fill has placed after a prefix `done` of the items. -/
structure Placed (keys : List ℕ) (m : ℕ) (done : List (ℕ × α))
    (st : (ℕ → ℕ) × (ℕ → α)) : Prop where
  fill : ∀ k, st.1 k = starts keys m k + (bucket done k).length
  out : ∀ k < m, (List.range' (starts keys m k) (bucket done k).length).map st.2 = bucket done k

theorem map_range'_update {out : ℕ → α} {s len p : ℕ} {x : α} (h : p < s ∨ s + len ≤ p) :
    (List.range' s len).map (Function.update out p x) = (List.range' s len).map out := by
  apply List.map_congr_left
  intro q hq
  rw [List.mem_range'_1] at hq
  exact Function.update_of_ne (by omega) _ _

theorem bucket_length_le {keys : List ℕ} {items : List (ℕ × α)}
    (hk : (items.map Prod.fst).Sublist keys) (k : ℕ) : (bucket items k).length ≤ keys.count k := by
  rw [length_bucket]
  exact hk.count_le k

/-- One write of the fill: the next free place of row `j` gets `x`. -/
theorem placed_step {keys : List ℕ} {m j : ℕ} {x : α} {done : List (ℕ × α)}
    {st : (ℕ → ℕ) × (ℕ → α)} (h : Placed keys m done st) (hj : j < m)
    (hk : ((done ++ [(j, x)]).map Prod.fst).Sublist keys) :
    Placed keys m (done ++ [(j, x)])
      (Function.update st.1 j (st.1 j + 1), Function.update st.2 (st.1 j) x) := by
  have hfill := h.fill j
  have hroom := bucket_length_le hk j
  rw [bucket_append_singleton, if_pos rfl, List.length_append, List.length_singleton] at hroom
  constructor
  · intro k
    rw [bucket_append_singleton]
    by_cases hjk : j = k
    · subst hjk
      simp [h.fill j, Nat.add_assoc]
    · simp [Function.update_of_ne (Ne.symm hjk), h.fill k, hjk]
  · intro k hkm
    rw [bucket_append_singleton]
    by_cases hjk : j = k
    · subst hjk
      rw [if_pos rfl, List.length_append, List.length_singleton, List.range'_1_concat,
        List.map_append, map_range'_update (by omega), h.out j hkm]
      simp [hfill]
    · rw [if_neg hjk, List.append_nil, map_range'_update, h.out k hkm]
      -- rows do not overlap: the written place lies in row j
      have hdone : (bucket done k).length ≤ keys.count k := by
        have := bucket_length_le hk k
        rwa [bucket_append_singleton, if_neg hjk, List.append_nil] at this
      have hsj := starts_succ keys hj
      have hsk := starts_succ keys hkm
      rcases Nat.lt_or_ge j k with hlt | hge
      · have := starts_mono keys (show j + 1 ≤ k from hlt) hkm.le
        left
        omega
      · have := starts_mono keys (show k + 1 ≤ j by omega) hj.le
        right
        omega

theorem placed_place {m : ℕ} (items : List (ℕ × α)) (hm : ∀ p ∈ items, p.1 < m) (out : ℕ → α) :
    Placed (items.map Prod.fst) m items (place (starts (items.map Prod.fst) m) out items) := by
  suffices h : ∀ done rest, done ++ rest = items →
      Placed (items.map Prod.fst) m done
        (place (starts (items.map Prod.fst) m) out done) from h items [] (by simp)
  intro done
  induction done using List.reverseRecOn with
  | nil =>
    intro rest _
    exact ⟨fun k => by simp [place, bucket], fun k _ => by simp [bucket]⟩
  | append_singleton done p ih =>
    intro rest hrest
    obtain ⟨j, x⟩ := p
    have hd := ih ((j, x) :: rest) (by simpa using hrest)
    have hj : j < m := hm (j, x) (by simp [← hrest])
    have hk : ((done ++ [(j, x)]).map Prod.fst).Sublist (items.map Prod.fst) := by
      rw [← hrest]
      exact (List.sublist_append_left _ _).map Prod.fst
    have := placed_step hd hj hk
    simpa [place, List.foldl_append] using this

/-- After the fill, row `k` holds the items of key `k` in their order. -/
theorem slice_place {m k : ℕ} (items : List (ℕ × α)) (hm : ∀ p ∈ items, p.1 < m) (hk : k < m)
    (out : ℕ → α) :
    slice (starts (items.map Prod.fst) m) (place (starts (items.map Prod.fst) m) out items).2 k =
      bucket items k := by
  have h := (placed_place items hm out).out k hk
  rwa [slice, starts_succ _ hk, Nat.add_sub_cancel_left, ← length_bucket]

/-- After some items the cursor of row `k` stands behind those of them in it. -/
theorem place_fill (start : ℕ → ℕ) (out : ℕ → α) (items : List (ℕ × α)) (k : ℕ) :
    (place start out items).1 k = start k + (bucket items k).length := by
  induction items using List.reverseRecOn with
  | nil => rfl
  | append_singleton items p ih =>
    obtain ⟨j, x⟩ := p
    simp only [place, List.foldl_append, List.foldl_cons, List.foldl_nil] at ih ⊢
    rw [bucket_append_singleton]
    by_cases h : j = k
    · subst h
      simp [ih, Nat.add_assoc]
    · rw [Function.update_of_ne (Ne.symm h), ih]
      simp [h]

theorem countP_lt_succ (keys : List ℕ) (k : ℕ) :
    keys.countP (· < k + 1) = keys.countP (· < k) + keys.count k := by
  induction keys with
  | nil => rfl
  | cons j keys ih =>
    rw [List.countP_cons, List.countP_cons, List.count_cons, ih]
    rcases Nat.lt_trichotomy j k with h | h | h
    · simp [h, Nat.lt_succ_of_lt h, h.ne]
      omega
    · simp [h]
      omega
    · simp [h.ne', Nat.not_lt.mpr h.le, Nat.not_lt.mpr (show k + 1 ≤ j from h)]

/-- A row starts after the items of all smaller keys. -/
theorem starts_eq_countP (keys : List ℕ) {m k : ℕ} (hk : k ≤ m) :
    starts keys m k = keys.countP (· < k) := by
  induction k with
  | zero => simp [starts_zero]
  | succ k ih =>
    rw [starts_succ keys hk, ih (by omega), countP_lt_succ]

theorem starts_le_length (keys : List ℕ) {m k : ℕ} (hk : k ≤ m) :
    starts keys m k ≤ keys.length := by
  rw [starts_eq_countP keys hk]
  exact List.countP_le_length

/-- The places behind the items keep what they hold. -/
theorem place_of_length_le {m : ℕ} {items : List (ℕ × α)} (hm : ∀ p ∈ items, p.1 < m) (out : ℕ → α)
    {q : ℕ} (hq : items.length ≤ q) :
    (place (starts (items.map Prod.fst) m) out items).2 q = out q := by
  suffices h : ∀ done rest, done ++ rest = items →
      (place (starts (items.map Prod.fst) m) out done).2 q = out q from h items [] (by simp)
  intro done
  induction done using List.reverseRecOn with
  | nil => exact fun _ _ => rfl
  | append_singleton done p ih =>
    intro rest hrest
    obtain ⟨j, x⟩ := p
    have hprev := ih ((j, x) :: rest) (by simpa using hrest)
    have hj : j < m := hm (j, x) (by simp [← hrest])
    -- the cursor of row `j` is before the end of that row
    have hroom : (bucket done j).length + 1 ≤ (items.map Prod.fst).count j := by
      have hsub : ((done ++ [(j, x)]).map Prod.fst).Sublist (items.map Prod.fst) := by
        rw [← hrest]
        exact (List.sublist_append_left _ _).map Prod.fst
      have hle := bucket_length_le hsub j
      rwa [bucket_append_singleton, if_pos rfl, List.length_append] at hle
    have hstart := starts_succ (items.map Prod.fst) hj
    have hend := starts_le_length (items.map Prod.fst) (show j + 1 ≤ m from hj)
    have hfill := place_fill (starts (items.map Prod.fst) m) out done j
    rw [List.length_map] at hend
    rw [place, List.foldl_append]
    refine (Function.update_of_ne ?_ _ _).trans hprev
    change q ≠ (place (starts (items.map Prod.fst) m) out done).1 j
    omega

/-- The last row ends with the last item. -/
theorem starts_last {keys : List ℕ} {m : ℕ} (hm : ∀ k ∈ keys, k < m) :
    starts keys m m = keys.length := by
  rw [starts_eq_countP keys le_rfl, List.countP_eq_length]
  exact fun k hk => decide_eq_true (hm k hk)

end CountingSort
