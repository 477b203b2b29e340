import Rgpot.Lib.CountingSort

/-! Counting sort in integers with a largest value: undefined once a sum passes it. -/
namespace CheckedSort
open CountingSort

variable {α : Type} {limit : ℕ}

/-- A sum, none past the largest value. -/
def add (limit x y : ℕ) : Option ℕ := if x + y ≤ limit then some (x + y) else none

def countKeys (limit : ℕ) (keys : List ℕ) : Option (ℕ → ℕ) :=
  keys.foldlM (fun a k => (add limit (a (k + 1)) 1).map (Function.update a (k + 1))) fun _ => 0

def prefixSum (limit : ℕ) (a : ℕ → ℕ) (m : ℕ) : Option (ℕ → ℕ) :=
  (List.range m).foldlM
    (fun a c => (add limit (a (c + 1)) (a c)).map (Function.update a (c + 1))) a

def place (limit : ℕ) (start : ℕ → ℕ) (out : ℕ → α) (items : List (ℕ × α)) :
    Option ((ℕ → ℕ) × (ℕ → α)) :=
  items.foldlM (fun (fill, out) (k, x) => (add limit (fill k) 1).map fun next =>
    (Function.update fill k next, Function.update out (fill k) x)) (start, out)

/-- The row starts and the filled rows. -/
def sort (limit : ℕ) (items : List (ℕ × α)) (m : ℕ) (out : ℕ → α) :
    Option ((ℕ → ℕ) × (ℕ → α)) :=
  (countKeys limit (items.map Prod.fst)).bind fun count =>
    (prefixSum limit count m).bind fun start =>
      (place limit start out items).map fun filled => (start, filled.2)

theorem add_eq_some {x y z : ℕ} : add limit x y = some z ↔ x + y ≤ limit ∧ x + y = z := by
  unfold add
  by_cases h : x + y ≤ limit
  · simp [h]
  · simp [h]

theorem countKeys_concat (keys : List ℕ) (j : ℕ) : countKeys limit (keys ++ [j]) =
    (countKeys limit keys).bind fun a =>
      (add limit (a (j + 1)) 1).map (Function.update a (j + 1)) := by
  simp [countKeys, List.foldlM_append]

theorem countKeys_eq {keys : List ℕ} {a : ℕ → ℕ} (h : countKeys limit keys = some a) :
    a = CountingSort.countKeys keys := by
  induction keys using List.reverseRecOn generalizing a with
  | nil =>
    cases h
    rfl
  | append_singleton keys j ih =>
    rw [countKeys_concat] at h
    obtain ⟨b, hb, hstep⟩ := Option.bind_eq_some_iff.mp h
    obtain ⟨x, hx, rfl⟩ := Option.map_eq_some_iff.mp hstep
    obtain rfl := ih hb
    obtain ⟨-, rfl⟩ := add_eq_some.mp hx
    simp [CountingSort.countKeys, List.foldl_append]

theorem countKeys_of_length {keys : List ℕ} (h : keys.length ≤ limit) :
    countKeys limit keys = some (CountingSort.countKeys keys) := by
  induction keys using List.reverseRecOn with
  | nil => rfl
  | append_singleton keys j ih =>
    rw [List.length_append, List.length_singleton] at h
    have hcount : CountingSort.countKeys keys (j + 1) + 1 ≤ limit := by
      have := List.count_le_length (a := j) (l := keys)
      rw [countKeys_succ]
      omega
    rw [countKeys_concat, ih (by omega), Option.bind_some, add, if_pos hcount]
    simp [CountingSort.countKeys, List.foldl_append]

theorem prefixSum_succ_range (a : ℕ → ℕ) (m : ℕ) : prefixSum limit a (m + 1) =
    (prefixSum limit a m).bind fun b =>
      (add limit (b (m + 1)) (b m)).map (Function.update b (m + 1)) := by
  simp [prefixSum, List.range_succ, List.foldlM_append]

theorem prefixSum_eq {a b : ℕ → ℕ} {m : ℕ} (h : prefixSum limit a m = some b) :
    b = CountingSort.prefixSum a m ∧ ∀ c < m, b (c + 1) ≤ limit := by
  induction m generalizing b with
  | zero =>
    cases h
    exact ⟨rfl, fun c hc => absurd hc (Nat.not_lt_zero c)⟩
  | succ m ih =>
    rw [prefixSum_succ_range] at h
    obtain ⟨b, hb, hstep⟩ := Option.bind_eq_some_iff.mp h
    obtain ⟨x, hx, rfl⟩ := Option.map_eq_some_iff.mp hstep
    obtain ⟨rfl, hle⟩ := ih hb
    obtain ⟨hsum, rfl⟩ := add_eq_some.mp hx
    refine ⟨(CountingSort.prefixSum_succ_range a m).symm, ?_⟩
    intro c hc
    by_cases hcm : c = m
    · rw [hcm, Function.update_self]
      exact hsum
    · rw [Function.update_of_ne (by omega)]
      exact hle c (by omega)

theorem prefixSum_of_le {a : ℕ → ℕ} {m : ℕ}
    (h : ∀ c < m, CountingSort.prefixSum a m (c + 1) ≤ limit) :
    prefixSum limit a m = some (CountingSort.prefixSum a m) := by
  induction m with
  | zero => rfl
  | succ m ih =>
    have hearlier : ∀ c < m, CountingSort.prefixSum a m (c + 1) ≤ limit := by
      intro c hc
      have := h c (by omega)
      rwa [CountingSort.prefixSum_succ_range, Function.update_of_ne (by omega)] at this
    have hlast : CountingSort.prefixSum a m (m + 1) + CountingSort.prefixSum a m m ≤ limit := by
      have := h m (Nat.lt_succ_self m)
      rwa [CountingSort.prefixSum_succ_range, Function.update_self] at this
    rw [prefixSum_succ_range, ih hearlier, Option.bind_some, add, if_pos hlast,
      CountingSort.prefixSum_succ_range]
    rfl

theorem place_concat (start : ℕ → ℕ) (out : ℕ → α) (items : List (ℕ × α)) (p : ℕ × α) :
    place limit start out (items ++ [p]) = (place limit start out items).bind fun s =>
      (add limit (s.1 p.1) 1).map fun next =>
        (Function.update s.1 p.1 next, Function.update s.2 (s.1 p.1) p.2) := by
  simp [place, List.foldlM_append]

theorem place_of_le {start : ℕ → ℕ} {items : List (ℕ × α)} (out : ℕ → α)
    (h : ∀ p ∈ items, start p.1 + (bucket items p.1).length ≤ limit) :
    place limit start out items = some (CountingSort.place start out items) := by
  induction items using List.reverseRecOn with
  | nil => rfl
  | append_singleton items p ih =>
    obtain ⟨j, x⟩ := p
    have hearlier : ∀ p ∈ items, start p.1 + (bucket items p.1).length ≤ limit := by
      intro p hp
      have := h p (List.mem_append_left _ hp)
      rw [bucket_append_singleton, List.length_append] at this
      omega
    have hlast : (CountingSort.place start out items).1 j + 1 ≤ limit := by
      have := h (j, x) (List.mem_append_right _ List.mem_cons_self)
      rw [bucket_append_singleton, if_pos rfl, List.length_append, List.length_singleton] at this
      rw [place_fill]
      omega
    rw [place_concat, ih hearlier, Option.bind_some, add, if_pos hlast]
    simp [CountingSort.place, List.foldl_append]

/-- The sort goes through exactly when the largest value counts all the items. -/
theorem sort_eq {items : List (ℕ × α)} {m : ℕ} (hm : ∀ p ∈ items, p.1 < m) (out : ℕ → α) :
    sort limit items m out = if items.length ≤ limit then
      some (starts (items.map Prod.fst) m,
        (CountingSort.place (starts (items.map Prod.fst) m) out items).2) else none := by
  have hkeys : ∀ k ∈ items.map Prod.fst, k < m := by
    intro k hk
    obtain ⟨p, hp, rfl⟩ := List.mem_map.mp hk
    exact hm p hp
  by_cases h : items.length ≤ limit
  · have hstarts : ∀ c < m, CountingSort.prefixSum (CountingSort.countKeys
        (items.map Prod.fst)) m (c + 1) ≤ limit := by
      intro c hc
      have := starts_le_length (items.map Prod.fst) (show c + 1 ≤ m from hc)
      rw [List.length_map] at this
      exact this.trans h
    have hrows : ∀ p ∈ items, starts (items.map Prod.fst) m p.1 +
        (bucket items p.1).length ≤ limit := by
      intro p hp
      rw [length_bucket, ← starts_succ _ (hm p hp)]
      have := starts_le_length (items.map Prod.fst) (show p.1 + 1 ≤ m from hm p hp)
      rw [List.length_map] at this
      exact this.trans h
    have hplace := place_of_le out hrows
    rw [if_pos h, sort, countKeys_of_length (by simpa using h), Option.bind_some,
      prefixSum_of_le hstarts, Option.bind_some]
    rw [starts] at hplace
    rw [hplace]
    rfl
  · rw [if_neg h]
    by_contra hsome
    obtain ⟨r, hr⟩ := Option.ne_none_iff_exists'.mp hsome
    obtain ⟨count, hcount, hrest⟩ := Option.bind_eq_some_iff.mp hr
    obtain ⟨start, hstart, -⟩ := Option.bind_eq_some_iff.mp hrest
    obtain rfl := countKeys_eq hcount
    obtain ⟨rfl, hle⟩ := prefixSum_eq hstart
    have hlast := starts_last hkeys
    rw [List.length_map, starts] at hlast
    cases m with
    | zero =>
      have hnil : items = [] := List.eq_nil_iff_forall_not_mem.mpr fun p hp =>
        Nat.not_lt_zero _ (hm p hp)
      simp [hnil] at h
    | succ m =>
      have := hle m (Nat.lt_succ_self m)
      omega

end CheckedSort
