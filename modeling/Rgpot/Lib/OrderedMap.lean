import Rgpot.Lib.Numerals

/-! Finite maps as entries in ascending order of their keys. -/

/-- A map whose iteration runs over ascending keys. -/
structure OrderedMap (κ ν : Type) [LinearOrder κ] where
  entries : List (κ × ν)
  ordered : entries.Pairwise fun a b => a.1 < b.1

namespace OrderedMap

variable {κ ν : Type} [LinearOrder κ]

instance [DecidableEq ν] : DecidableEq (OrderedMap κ ν) := fun m m' =>
  decidable_of_iff (m.entries = m'.entries) ⟨fun h => by cases m; cases m'; cases h; rfl, congrArg entries⟩

def empty : OrderedMap κ ν := ⟨[], List.Pairwise.nil⟩

/-- The entries with `k` mapped to `v`. -/
def insert (k : κ) (v : ν) : List (κ × ν) → List (κ × ν)
  | [] => [(k, v)]
  | a :: l => if k < a.1 then (k, v) :: a :: l else if k = a.1 then (k, v) :: l else a :: insert k v l

theorem mem_insert {k : κ} {v : ν} {l : List (κ × ν)} {a : κ × ν} (h : a ∈ insert k v l) :
    a = (k, v) ∨ a ∈ l := by
  induction l with
  | nil => exact Or.inl (List.mem_singleton.mp h)
  | cons b l ih =>
    unfold insert at h
    split at h
    · exact List.mem_cons.mp h
    · split at h
      · rcases List.mem_cons.mp h with rfl | h
        · exact Or.inl rfl
        · exact Or.inr (List.mem_cons_of_mem b h)
      · rcases List.mem_cons.mp h with rfl | h
        · exact Or.inr List.mem_cons_self
        · rcases ih h with rfl | h
          · exact Or.inl rfl
          · exact Or.inr (List.mem_cons_of_mem b h)

theorem ordered_insert (k : κ) (v : ν) {l : List (κ × ν)}
    (h : l.Pairwise fun a b => a.1 < b.1) : (insert k v l).Pairwise fun a b => a.1 < b.1 := by
  induction l with
  | nil => exact List.pairwise_singleton _ _
  | cons b l ih =>
    obtain ⟨hb, hl⟩ := List.pairwise_cons.mp h
    unfold insert
    split
    · rename_i hlt
      refine List.pairwise_cons.mpr ⟨?_, h⟩
      intro a ha
      rcases List.mem_cons.mp ha with rfl | ha
      · exact hlt
      · exact hlt.trans (hb a ha)
    · split
      · rename_i heq
        subst heq
        exact List.pairwise_cons.mpr ⟨hb, hl⟩
      · rename_i hge hne
        refine List.pairwise_cons.mpr ⟨?_, ih hl⟩
        intro a ha
        rcases mem_insert ha with rfl | ha
        · exact lt_of_le_of_ne (not_lt.mp hge) (Ne.symm hne)
        · exact hb a ha

/-- `m[k] = v`. -/
def set (m : OrderedMap κ ν) (k : κ) (v : ν) : OrderedMap κ ν :=
  ⟨insert k v m.entries, ordered_insert k v m.ordered⟩

def get? (m : OrderedMap κ ν) (k : κ) : Option ν :=
  (m.entries.find? fun a => a.1 = k).map Prod.snd

theorem get?_eq_some {m : OrderedMap κ ν} {k : κ} {v : ν} :
    m.get? k = some v ↔ (k, v) ∈ m.entries := by
  obtain ⟨l, hl⟩ := m
  simp only [get?]
  induction l with
  | nil => simp
  | cons b l ih =>
    obtain ⟨hb, hl⟩ := List.pairwise_cons.mp hl
    rw [List.find?_cons]
    by_cases hk : b.1 = k
    · rw [decide_eq_true hk]
      simp only [Option.map_some, Option.some.injEq, List.mem_cons]
      constructor
      · intro hv
        left
        rw [← hk, ← hv]
      · rintro (h | h)
        · rw [← h]
        · have := hb _ h
          rw [hk] at this
          exact absurd this (lt_irrefl k)
    · rw [decide_eq_false hk, ih hl, List.mem_cons]
      refine (or_iff_right ?_).symm
      rintro rfl
      exact hk rfl

/-- A map is known by its values. -/
theorem ext_get? {m m' : OrderedMap κ ν} (h : ∀ k, m.get? k = m'.get? k) : m = m' := by
  have hmem : ∀ a, a ∈ m.entries ↔ a ∈ m'.entries := by
    intro a
    rw [← get?_eq_some, ← get?_eq_some, h a.1]
  have hnodup : ∀ m : OrderedMap κ ν, m.entries.Nodup :=
    fun m => m.ordered.imp fun hab heq => absurd (congrArg Prod.fst heq) hab.ne
  have hperm := (List.perm_ext_iff_of_nodup (hnodup m) (hnodup m')).mpr hmem
  have heq : m.entries = m'.entries :=
    List.Perm.eq_of_pairwise (fun a b _ _ hab hba => absurd hba hab.asymm) m.ordered m'.ordered hperm
  cases m
  cases m'
  cases heq
  rfl

theorem get?_set (m : OrderedMap κ ν) (k j : κ) (v : ν) :
    (m.set k v).get? j = if j = k then some v else m.get? j := by
  obtain ⟨l, hl⟩ := m
  simp only [get?, set]
  induction l with
  | nil =>
    by_cases h : j = k
    · simp [insert, h]
    · simp [insert, h, Ne.symm h]
  | cons b l ih =>
    obtain ⟨hb, hl⟩ := List.pairwise_cons.mp hl
    unfold insert
    split
    · by_cases h : j = k
      · simp [h]
      · simp [h, Ne.symm h]
    · split
      · rename_i heq
        subst heq
        by_cases h : j = b.1
        · simp [h]
        · simp [h, Ne.symm h]
      · rename_i hne
        rw [List.find?_cons, List.find?_cons]
        by_cases h : b.1 = j
        · subst h
          simp [Ne.symm hne]
        · rw [decide_eq_false h]
          exact ih hl

/-- Keys set in ascending order are appended. -/
theorem foldl_set (l : List (κ × ν)) (h : l.Pairwise fun a b => a.1 < b.1) :
    l.foldl (fun m a => set m a.1 a.2) empty = ⟨l, h⟩ := by
  induction l using List.reverseRecOn with
  | nil => rfl
  | append_singleton l a ih =>
    obtain ⟨hl, -, ha⟩ := List.pairwise_append.mp h
    have happend : ∀ l : List (κ × ν), (∀ b ∈ l, b.1 < a.1) → insert a.1 a.2 l = l ++ [a] := by
      intro l
      induction l with
      | nil => exact fun _ => rfl
      | cons b l ih =>
        intro hlast
        have hb := hlast b List.mem_cons_self
        rw [insert, if_neg hb.asymm, if_neg hb.ne', ih fun c hc => hlast c (List.mem_cons_of_mem b hc),
          List.cons_append]
    rw [List.foldl_append, ih hl]
    simp only [List.foldl_cons, List.foldl_nil, set]
    congr 1
    exact happend l fun b hb => ha b hb a List.mem_cons_self

end OrderedMap
